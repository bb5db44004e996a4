import Cool.Interner
import Cool.Tree.Basic

/-! Building trees from plain texts. Every node gets the current line of the builder, and every name
is interned when the node that holds it is made. -/

namespace Cool

/-- The file and line of the nodes to come, and the tables filled so far. -/
structure Builder where
  file : String
  line : Int := 1
  tables : Tables := {}

abbrev Building := StateM Builder

namespace Builder

/-- Moves the builder to a line. -/
def moveTo (n : Int) : Building Unit :=
  modify fun b => { b with line := n }

def span : Building Span := do
  let b ← get
  return ⟨b.file, b.line⟩

def mark : Building Mark := do
  return ⟨← span, .anonymous⟩

/-- Interns an identifier. -/
def name (text : String) : Building Name := do
  modify fun b => { b with tables := b.tables.addName text }
  return .named text

/-- Interns an identifier unless it is empty. -/
def optionalName (text : String) : Building Name :=
  if text = "" then pure .anonymous else name text

def program (classes : List ClassDecl) : Building Program := do
  return ⟨← span, classes⟩

/-- Declares a class; an empty parent means that it names none. -/
def classDecl (className parent : String) (features : List Feature) : Building ClassDecl := do
  let className ← name className
  let parent ← optionalName parent
  return ⟨← span, className, parent, features⟩

/-- Formals from names and types that take turns. -/
def formals : List String → Building (List Formal)
  | x :: t :: rest => do
    let x ← name x
    let t ← name t
    let place ← span
    let others ← formals rest
    return ⟨place, x, t⟩ :: others
  | _ => pure []

def method (methodName : String) (formals : List Formal) (result : String) (body : Expr) :
    Building Feature := do
  let methodName ← name methodName
  let result ← name result
  return .method ⟨← span, methodName, formals, result, body⟩

def noExpr : Building Expr := do
  return .noExpr (← mark)

/-- An initializer that may be left out. -/
def orNoExpr : Expr → Building Expr
  | .missing => noExpr
  | e => pure e

def attr (attributeName type : String) (init : Expr) : Building Feature := do
  let init ← orNoExpr init
  let attributeName ← name attributeName
  let type ← name type
  return .attr ⟨← span, attributeName, type, init⟩

def int (n : Int) : Building Expr := do
  let token := toString n
  modify fun b => { b with tables := b.tables.addInt token }
  return .int (← mark) token

def string (s : String) : Building Expr := do
  modify fun b => { b with tables := b.tables.addString s }
  return .string (← mark) s

def bool (value : Bool) : Building Expr := do
  return .bool (← mark) value

def object (x : String) : Building Expr := do
  let x ← name x
  return .object (← mark) x

def new (type : String) : Building Expr := do
  let type ← name type
  return .new (← mark) type

def block (body : List Expr) : Building Expr := do
  return .block (← mark) body

def assign (x : String) (value : Expr) : Building Expr := do
  let x ← name x
  return .assign (← mark) x value

def dispatch (receiver : Expr) (methodName : String) (args : List Expr) : Building Expr := do
  let methodName ← name methodName
  return .dispatch (← mark) receiver methodName args

/-- Calls a method of the receiver at hand. -/
def call (methodName : String) (args : List Expr) : Building Expr := do
  let receiver ← object "self"
  dispatch receiver methodName args

def staticDispatch (receiver : Expr) (target methodName : String) (args : List Expr) :
    Building Expr := do
  let target ← name target
  let methodName ← name methodName
  return .staticDispatch (← mark) receiver target methodName args

def cond (pred onTrue onFalse : Expr) : Building Expr := do
  return .cond (← mark) pred onTrue onFalse

def loop (pred body : Expr) : Building Expr := do
  return .loop (← mark) pred body

def letIn (x type : String) (init body : Expr) : Building Expr := do
  let init ← orNoExpr init
  let x ← name x
  let type ← name type
  return .letIn (← mark) x type init body

def branch (x guard : String) (body : Expr) : Building Branch := do
  let x ← name x
  let guard ← name guard
  return .mk (← span) x guard body

def caseOf (scrutinee : Expr) (branches : List Branch) : Building Expr := do
  return .caseOf (← mark) scrutinee branches

def binary (op : BinaryOp) (left right : Expr) : Building Expr := do
  return .binary (← mark) op left right

def unary (op : UnaryOp) (operand : Expr) : Building Expr := do
  return .unary (← mark) op operand

end Builder

end Cool
