import Cool.Interner
import Cool.Tree.Basic

/-! The tables of a program: its names and literals, interned in the order in which a document
gives them. -/

namespace Cool

namespace Tables

/-- Adds a name where one is given. -/
def addName? (t : Tables) : Name → Tables
  | .anonymous => t
  | .named s => t.addName s

end Tables

mutual

/-- Interns the names and literals of an expression. A receiver comes before the method, the
method before the arguments, and the target class of a static dispatch last. -/
def Expr.intern : Expr → Tables → Tables
  | .missing, t | .noExpr _, t | .bool _ _, t => t
  | .block _ body, t => Expr.internAll body t
  | .assign _ name value, t => value.intern (t.addName? name)
  | .dispatch _ receiver method args, t =>
    Expr.internAll args ((receiver.intern t).addName? method)
  | .staticDispatch _ receiver target method args, t =>
    (Expr.internAll args ((receiver.intern t).addName? method)).addName? target
  | .cond _ pred onTrue onFalse, t => onFalse.intern (onTrue.intern (pred.intern t))
  | .loop _ pred body, t => body.intern (pred.intern t)
  | .caseOf _ scrutinee branches, t => Branch.internAll branches (scrutinee.intern t)
  | .letIn _ name type init body, t =>
    body.intern (init.intern ((t.addName? name).addName? type))
  | .binary _ _ left right, t => right.intern (left.intern t)
  | .unary _ _ operand, t => operand.intern t
  | .int _ token, t => t.addInt token
  | .string _ value, t => t.addString value
  | .new _ type, t => t.addName? type
  | .object _ name, t => t.addName? name
termination_by structural e => e

def Expr.internAll : List Expr → Tables → Tables
  | [], t => t
  | e :: rest, t => Expr.internAll rest (e.intern t)
termination_by structural es => es

def Branch.internAll : List Branch → Tables → Tables
  | [], t => t
  | .mk _ name type body :: rest, t =>
    Branch.internAll rest (body.intern ((t.addName? name).addName? type))
termination_by structural bs => bs

end

def Formal.intern (f : Formal) (t : Tables) : Tables :=
  (t.addName? f.name).addName? f.type

def Feature.intern : Feature → Tables → Tables
  | .method m, t =>
    m.body.intern
      (m.formals.foldl (fun t f => f.intern t) ((t.addName? m.name).addName? m.result))
  | .attr a, t => a.init.intern ((t.addName? a.name).addName? a.type)

def ClassDecl.intern (c : ClassDecl) (t : Tables) : Tables :=
  c.features.foldl (fun t f => f.intern t) ((t.addName? c.name).addName? c.parent)

/-- The tables after all names and literals of a program were interned. -/
def Program.intern (p : Program) (t : Tables) : Tables :=
  p.classes.foldl (fun t c => c.intern t) t

end Cool
