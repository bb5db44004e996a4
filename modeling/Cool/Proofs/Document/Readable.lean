import Cool.Proofs.Tree.Complete
import Cool.Proofs.Tree.Nodes

/-! Trees as documents give them. A document says where a node is and spells out its names, but it
does not tell types; what it can describe is a tree in one file with nothing left out. -/

namespace Cool

/-! ## What a document can describe -/

/-- Whether a place is in a file, at a line of 64 bits. -/
def Span.isIn (file : String) (s : Span) : Bool :=
  decide (s.file = file ∧ -0x8000000000000000 ≤ s.line ∧ s.line < 0x8000000000000000)

/-- Whether a token is a string of digits. -/
def isDigits (token : String) : Bool :=
  decide (token ≠ "") && token.toList.all Char.isDigit

namespace Node

/-- The place of a node. -/
def span : Node → Span
  | program p => p.span
  | classDecl c => c.span
  | method m => m.span
  | attr a => a.span
  | formal f => f.span
  | branch b => b.span
  | expr e => e.span?.getD {}

/-- A node in a file. If it is an integer literal, its token is a string of digits. -/
structure IsReadable (file : String) (n : Node) : Prop where
  span : n.span.isIn file = true
  token : ∀ token ∈ n.token?, isDigits token = true

end Node

/-- A program that a document can describe. Its parts are all there, in one file that it is the
first line of, and a class without a parent leaves it out. -/
structure Program.IsReadable (p : Program) : Prop where
  line : p.span.line = 1
  nodes : ∀ n ∈ p.nodes, n.IsReadable p.span.file
  written : ∀ c ∈ p.classes, ∀ f ∈ c.features, f.isWritten = true
  parent : ∀ c ∈ p.classes, c.parent ≠ .named ""

/-! ## What a document tells -/

/-- A name as a document gives it. -/
def Name.spelled (n : Name) : Name :=
  .named n.text

/-- A place without a type. -/
def Mark.bare (m : Mark) : Mark :=
  ⟨m.span, .anonymous⟩

mutual

/-- An expression without its types, its names told by their texts. -/
def Expr.bare : Expr → Expr
  | .missing => .missing
  | .noExpr m => .noExpr m.bare
  | .block m body => .block m.bare (Expr.bareAll body)
  | .assign m name value => .assign m.bare name.spelled value.bare
  | .dispatch m receiver method args =>
    .dispatch m.bare receiver.bare method.spelled (Expr.bareAll args)
  | .staticDispatch m receiver target method args =>
    .staticDispatch m.bare receiver.bare target.spelled method.spelled (Expr.bareAll args)
  | .cond m pred onTrue onFalse => .cond m.bare pred.bare onTrue.bare onFalse.bare
  | .loop m pred body => .loop m.bare pred.bare body.bare
  | .caseOf m scrutinee branches => .caseOf m.bare scrutinee.bare (Branch.bareAll branches)
  | .letIn m name type init body =>
    .letIn m.bare name.spelled type.spelled init.bare body.bare
  | .binary m op left right => .binary m.bare op left.bare right.bare
  | .unary m op operand => .unary m.bare op operand.bare
  | .int m token => .int m.bare token
  | .string m value => .string m.bare value
  | .bool m value => .bool m.bare value
  | .new m type => .new m.bare type.spelled
  | .object m name => .object m.bare name.spelled
termination_by structural e => e

def Expr.bareAll : List Expr → List Expr
  | [] => []
  | e :: rest => e.bare :: Expr.bareAll rest
termination_by structural es => es

def Branch.bareAll : List Branch → List Branch
  | [] => []
  | .mk span name type body :: rest =>
    .mk span name.spelled type.spelled body.bare :: Branch.bareAll rest
termination_by structural bs => bs

end

def Formal.bare (f : Formal) : Formal :=
  ⟨f.span, f.name.spelled, f.type.spelled⟩

def Feature.bare : Feature → Feature
  | .method m =>
    .method ⟨m.span, m.name.spelled, m.formals.map Formal.bare, m.result.spelled, m.body.bare⟩
  | .attr a => .attr ⟨a.span, a.name.spelled, a.type.spelled, a.init.bare⟩

def ClassDecl.bare (c : ClassDecl) : ClassDecl :=
  ⟨c.span, c.name.spelled, c.parent, c.features.map Feature.bare⟩

/-- A program without its types, its names told by their texts. Two programs with the same one
differ in nothing that a document tells. -/
def Program.bare (p : Program) : Program :=
  ⟨p.span, p.classes.map ClassDecl.bare⟩

end Cool
