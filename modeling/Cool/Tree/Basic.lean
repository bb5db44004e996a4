import Cool.Diagnostic.Basic
import Cool.Name

/-! The syntax tree of a program: classes with their features, and expressions that carry the type
the checker gives them. -/

namespace Cool

/-- Binary operators. A tree built by hand may hold an operator by an index that names none. -/
inductive BinaryOp where
  | plus
  | sub
  | mul
  | divide
  | lt
  | leq
  | eq
  | unknown (index : Int)
deriving DecidableEq, Repr

namespace BinaryOp

def ofIndex : Int → BinaryOp
  | 0 => plus
  | 1 => sub
  | 2 => mul
  | 3 => divide
  | 4 => lt
  | 5 => leq
  | 6 => eq
  | i => unknown i

/-- The operators that have a name, in the order of their indices. -/
def all : List BinaryOp :=
  [plus, sub, mul, divide, lt, leq, eq]

/-- The name of an operator in documents and dumps. -/
def tag? : BinaryOp → Option String
  | plus => some "plus"
  | sub => some "sub"
  | mul => some "mul"
  | divide => some "divide"
  | lt => some "lt"
  | leq => some "leq"
  | eq => some "eq"
  | unknown _ => none

/-- The spelling of an operator in source programs. -/
def symbol? : BinaryOp → Option String
  | plus => some "+"
  | sub => some "-"
  | mul => some "*"
  | divide => some "/"
  | lt => some "<"
  | leq => some "<="
  | eq => some "="
  | unknown _ => none

/-- Whether an operator yields an integer. Indices before the named operators count as
arithmetic. -/
def isArithmetic : BinaryOp → Bool
  | plus | sub | mul | divide => true
  | lt | leq | eq => false
  | unknown i => decide (i < 0)

end BinaryOp

/-- Unary operators, with an index where a tree built by hand names none. -/
inductive UnaryOp where
  | neg
  | comp
  | isvoid
  | unknown (index : Int)
deriving DecidableEq, Repr

namespace UnaryOp

def ofIndex : Int → UnaryOp
  | 0 => neg
  | 1 => comp
  | 2 => isvoid
  | i => unknown i

/-- The operators that have a name, in the order of their indices. -/
def all : List UnaryOp :=
  [neg, comp, isvoid]

def tag? : UnaryOp → Option String
  | neg => some "neg"
  | comp => some "comp"
  | isvoid => some "isvoid"
  | unknown _ => none

end UnaryOp

/-- What every expression carries: its place and its static type, which is anonymous until the
expression is checked. -/
structure Mark where
  span : Span
  type : Name := .anonymous
deriving DecidableEq, Repr, Inhabited

mutual

/-- Expressions. `missing` is a part that a tree built by hand leaves out altogether, while `noExpr`
is the node that stands for an absent initializer. -/
inductive Expr where
  | missing
  | noExpr (mark : Mark)
  | block (mark : Mark) (body : List Expr)
  | assign (mark : Mark) (name : Name) (value : Expr)
  | dispatch (mark : Mark) (receiver : Expr) (method : Name) (args : List Expr)
  | staticDispatch (mark : Mark) (receiver : Expr) (target method : Name) (args : List Expr)
  | cond (mark : Mark) (pred onTrue onFalse : Expr)
  | loop (mark : Mark) (pred body : Expr)
  | caseOf (mark : Mark) (scrutinee : Expr) (branches : List Branch)
  | letIn (mark : Mark) (name type : Name) (init body : Expr)
  | binary (mark : Mark) (op : BinaryOp) (left right : Expr)
  | unary (mark : Mark) (op : UnaryOp) (operand : Expr)
  | int (mark : Mark) (token : String)
  | string (mark : Mark) (value : String)
  | bool (mark : Mark) (value : Bool)
  | new (mark : Mark) (type : Name)
  | object (mark : Mark) (name : Name)

/-- An arm of a case expression: it binds `name` to a value of class `type` in `body`. -/
inductive Branch where
  | mk (span : Span) (name type : Name) (body : Expr)

end

namespace Branch

def span : Branch → Span
  | mk s _ _ _ => s

def name : Branch → Name
  | mk _ n _ _ => n

def type : Branch → Name
  | mk _ _ t _ => t

def body : Branch → Expr
  | mk _ _ _ e => e

end Branch

namespace Expr

instance : Inhabited Expr := ⟨missing⟩

/-- The mark of an expression that is there. -/
def mark? : Expr → Option Mark
  | missing => none
  | noExpr m | block m _ | assign m _ _ | dispatch m _ _ _ | staticDispatch m _ _ _ _
  | cond m _ _ _ | loop m _ _ | caseOf m _ _ | letIn m _ _ _ _ | binary m _ _ _ | unary m _ _
  | int m _ | string m _ | bool m _ | new m _ | object m _ => some m

/-- The type recorded for an expression. -/
def type (e : Expr) : Name :=
  match e.mark? with
  | some m => m.type
  | none => .anonymous

/-- The place of an expression that is there. -/
def span? (e : Expr) : Option Span :=
  e.mark?.map Mark.span

/-- Whether an expression stands for an absent one. -/
def isAbsent : Expr → Bool
  | missing | noExpr _ => true
  | _ => false

end Expr

/-- A parameter of a method. -/
structure Formal where
  span : Span
  name : Name
  type : Name
deriving DecidableEq, Repr

structure Method where
  span : Span
  name : Name
  formals : List Formal
  result : Name
  body : Expr

structure Attribute where
  span : Span
  name : Name
  type : Name
  init : Expr

/-- A member of a class. -/
inductive Feature where
  | method (m : Method)
  | attr (a : Attribute)

/-- A class declaration. Its parent is anonymous when the declaration names none. -/
structure ClassDecl where
  span : Span
  name : Name
  parent : Name := .anonymous
  features : List Feature

structure Program where
  span : Span
  classes : List ClassDecl

namespace Program

/-- The first declaration of a class. -/
def class? (p : Program) (name : Name) : Option ClassDecl :=
  p.classes.find? (·.name = name)

end Program

end Cool
