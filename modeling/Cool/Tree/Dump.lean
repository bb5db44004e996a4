import Cool.Fault
import Cool.Tree.Basic

/-! The typed dump of a tree: one line for each token, the line number before each node, and the
type after each expression. -/

namespace Cool

namespace Dump

def indent (n : Nat) (s : String) : String :=
  String.ofList (List.replicate n ' ') ++ s

/-- One character of a text between quotes. -/
def escapeChar : Char → List Char
  | '\\' => ['\\', '\\']
  | '\n' => ['\\', 'n']
  | '\t' => ['\\', 't']
  | '"' => ['\\', '"']
  | c => [c]

/-- A text between quotes that stays on one line. -/
def quoted (s : String) : String :=
  String.ofList ('"' :: s.toList.flatMap escapeChar ++ ['"'])

def position (n : Nat) (span : Span) : String :=
  indent n ("#" ++ toString span.line)

def typeLine (n : Nat) (type : Name) : String :=
  match type with
  | .anonymous => indent n ": _no_type"
  | .named t => indent n (": " ++ t)

def binaryTag (op : BinaryOp) : String :=
  match op with
  | .unknown i => "_" ++ namelessOperator "s" i 7
  | op => "_" ++ op.tag?.getD ""

def unaryTag (op : UnaryOp) : String :=
  match op with
  | .unknown i => "_" ++ namelessOperator "s" i 3
  | op => "_" ++ op.tag?.getD ""

/-- The lines of an expression: its position, its tag, its parts, and its type. -/
def framed (n : Nat) (mark : Mark) (tag : String) (parts : List String) : List String :=
  position n mark.span :: indent n tag :: parts ++ [typeLine n mark.type]

mutual

def expr (n : Nat) : Expr → List String
  | .missing => framed n ⟨{}, .anonymous⟩ "_no_expr" []
  | .noExpr m => framed n m "_no_expr" []
  | .block m body => framed n m "_block" (exprs (n + 2) body)
  | .assign m name value =>
    framed n m "_assign" (indent (n + 2) name.text :: expr (n + 2) value)
  | .dispatch m receiver method args =>
    framed n m "_dispatch"
      (expr (n + 2) receiver ++ indent (n + 2) method.text ::
        indent (n + 2) "(" :: exprs (n + 2) args ++ [indent (n + 2) ")"])
  | .staticDispatch m receiver target method args =>
    framed n m "_static_dispatch"
      (expr (n + 2) receiver ++ indent (n + 2) target.text :: indent (n + 2) method.text ::
        indent (n + 2) "(" :: exprs (n + 2) args ++ [indent (n + 2) ")"])
  | .cond m pred onTrue onFalse =>
    framed n m "_cond" (expr (n + 2) pred ++ expr (n + 2) onTrue ++ expr (n + 2) onFalse)
  | .loop m pred body => framed n m "_loop" (expr (n + 2) pred ++ expr (n + 2) body)
  | .caseOf m scrutinee arms =>
    framed n m "_typcase" (expr (n + 2) scrutinee ++ branches (n + 2) arms)
  | .letIn m name type init body =>
    framed n m "_let"
      (indent (n + 2) name.text :: indent (n + 2) type.text ::
        expr (n + 2) init ++ expr (n + 2) body)
  | .binary m op left right =>
    framed n m (binaryTag op) (expr (n + 2) left ++ expr (n + 2) right)
  | .unary m op operand => framed n m (unaryTag op) (expr (n + 2) operand)
  | .int m token => framed n m "_int" [indent (n + 2) token]
  | .string m value => framed n m "_string" [indent (n + 2) (quoted value)]
  | .bool m value => framed n m "_bool" [indent (n + 2) (if value then "1" else "0")]
  | .new m type => framed n m "_new" [indent (n + 2) type.text]
  | .object m name => framed n m "_object" [indent (n + 2) name.text]
termination_by structural e => e

def exprs (n : Nat) : List Expr → List String
  | [] => []
  | e :: rest => expr n e ++ exprs n rest
termination_by structural es => es

def branches (n : Nat) : List Branch → List String
  | [] => []
  | .mk span name type body :: rest =>
    position n span :: indent n "_branch" :: indent (n + 2) name.text ::
      indent (n + 2) type.text :: expr (n + 2) body ++ branches n rest
termination_by structural bs => bs

end

def formal (n : Nat) (f : Formal) : List String :=
  [position n f.span, indent n "_formal", indent (n + 2) f.name.text, indent (n + 2) f.type.text]

def feature (n : Nat) : Feature → List String
  | .method m =>
    position n m.span :: indent n "_method" :: indent (n + 2) m.name.text ::
      m.formals.flatMap (formal (n + 2)) ++ indent (n + 2) m.result.text :: expr (n + 2) m.body
  | .attr a =>
    position n a.span :: indent n "_attr" :: indent (n + 2) a.name.text ::
      indent (n + 2) a.type.text :: expr (n + 2) a.init

/-- The parent a dump shows for a class that names none. -/
def parentText : Name → String
  | .anonymous => "Object"
  | .named t => t

def classDecl (n : Nat) (c : ClassDecl) : List String :=
  position n c.span :: indent n "_class" :: indent (n + 2) c.name.text ::
    indent (n + 2) (parentText c.parent) :: indent (n + 2) (quoted c.span.file) ::
    indent (n + 2) "(" :: c.features.flatMap (feature (n + 2)) ++ [indent (n + 2) ")"]

/-- Lines as text, each ended by a newline. -/
def unlines (lines : List String) : String :=
  String.join (lines.map (· ++ "\n"))

end Dump

namespace Program

def dumpLines (p : Program) : List String :=
  Dump.position 0 p.span :: "_program" :: p.classes.flatMap (Dump.classDecl 2)

def dump (p : Program) : String :=
  Dump.unlines p.dumpLines

/-- The dump into a writer that takes a limited number of lines, and whether all of it was
taken. -/
def dumpWithin (p : Program) (limit : Nat) : String × Bool :=
  (Dump.unlines (p.dumpLines.take limit), decide (p.dumpLines.length ≤ limit))

end Program

end Cool
