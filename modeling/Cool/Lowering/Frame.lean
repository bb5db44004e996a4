import Cool.Lowering.Layout
import Cool.Lowering.Pool

/-! The state of lowering: the function at hand, and the functions finished so far. -/

namespace Cool.Lowering

open Wat

/-- The function at hand: its locals besides the parameters, how many scratch locals and labels it
uses, and the variables it assigns. -/
structure Frame where
  locals : List (String × ValType) := []
  temps : Nat := 0
  labels : Nat := 0
  assigned : List Name := []
deriving DecidableEq, Repr

/-- The function at hand, the number of functions lifted from expressions, and the functions
finished so far. -/
structure Progress where
  frame : Frame := {}
  lifted : Nat := 0
  funcs : List Func := []

abbrev Lower := StateT Progress (Except Fault)

def fail {α : Type} (f : Fault) : Lower α :=
  throw f

/-- Declares a new scratch local. -/
def freshTemp (t : ValType) : Lower String := do
  let s ← get
  let x := "$#t" ++ toString s.frame.temps
  set { s with
    frame := { s.frame with
      locals := s.frame.locals ++ [(x, t)]
      temps := s.frame.temps + 1 } }
  return x

/-- A new label of the given kind. -/
def freshLabel (kind : String) : Lower String := do
  let s ← get
  set { s with frame := { s.frame with labels := s.frame.labels + 1 } }
  return "$#" ++ kind ++ toString s.frame.labels

/-- Remembers that the function at hand assigns variables. -/
def noteAssigned (xs : List Name) : Lower Unit :=
  modify fun s => { s with frame := { s.frame with assigned := s.frame.assigned ++ xs } }

/-- A new name for a function lifted from an expression of a class. -/
def liftedName (cls : Name) (kind : String) : Lower String := do
  let s ← get
  set { s with lifted := s.lifted + 1 }
  return "$" ++ cls.text ++ "." ++ kind ++ "." ++ toString s.lifted

/-- Adds a finished function. -/
def emit (f : Func) : Lower Unit :=
  modify fun s => { s with funcs := s.funcs ++ [f] }

/-- Lowers the body of another function, with a frame of its own. -/
def inFrame {α : Type} (frame : Frame) (body : Lower α) : Lower (α × Frame) := do
  let outer := (← get).frame
  modify fun s => { s with frame := frame }
  let result ← body
  let inner := (← get).frame
  modify fun s => { s with frame := outer }
  return (result, inner)

/-- Where a visible variable lives: in a field of the receiver, or in a local. -/
inductive Place where
  | field
  | local
deriving DecidableEq, Repr

structure Binding where
  place : Place
  type : Name
deriving DecidableEq, Repr

/-- Where an expression is lowered: the members and constants of the program, the class it belongs
to, and the variables it sees. -/
structure Site where
  members : Members
  pool : Pool
  current : Name
  scope : Scope Name Binding

namespace Site

/-- The class that represents values of a type. -/
def layout (site : Site) (t : Name) : Except Fault Name :=
  if t = .selfType then .ok site.current
  else if t = .anonymous ∨ t = .noType ∨ t = .errType then .error (.noLayout t)
  else .ok t

/-- The value of a variable that was not initialized. -/
def defaultValue (site : Site) (t : Name) : Except Fault Instr :=
  if t = .int then return .plain (.globalGet (← site.pool.int 0)) []
  else if t = .string then return .plain (.globalGet (← site.pool.text "")) []
  else if t = .bool then return .plain (.globalGet falseGlobal) []
  else return .plain (.refNull (classType (← site.layout t))) []

/-- The cast from a class to one it does not conform to. -/
def coerce (site : Site) (found want : Name) : List Instr :=
  if site.members.hierarchy.conforms found want site.current then []
  else [.plain (.refCast (valueType want)) []]

def binding (site : Site) (x : Name) : Except Fault Binding :=
  match site.scope.lookup x with
  | some b => .ok b
  | none => .error (.unbound x)

/-- Binds a local variable in a scope of its own. -/
def bind (site : Site) (x type : Name) : Site :=
  { site with scope := site.scope.enterWith [(x, ⟨.local, type⟩)] }

/-- The method a call is made to. -/
def method (site : Site) (cls name : Name) : Except Fault MethodEntry :=
  match site.members.method? cls name site.current with
  | some m => .ok m
  | none => .error (.noMethod cls name)

/-- The class that represents an attribute of the current class. -/
def attributeClass (site : Site) (x : Name) : Except Fault Name :=
  match site.members.attribute? site.current x site.current with
  | some a => .ok (attributeLayout a)
  | none => .error .absent

/-- The locals an expression sees, with their types. -/
def locals (site : Site) : List Parameter :=
  site.scope.visible.filterMap fun (x, b) =>
    if b.place = .local then some ⟨x, b.type⟩ else none

/-- The locals seen once a variable is bound, which takes the place of the one it hides. Where no
name is given nothing is bound. -/
def localsWith (site : Site) (x type : Name) : List Parameter :=
  if x = .anonymous then site.locals
  else if site.locals.any (·.name = x) then
    site.locals.map fun p => if p.name = x then ⟨x, type⟩ else p
  else site.locals ++ [⟨x, type⟩]

/-- Locals with the types of their values. -/
def typedLocals (site : Site) (ps : List Parameter) : Except Fault (List (Name × ValType)) :=
  ps.mapM fun p => return (p.name, valueType (← site.layout p.type))

end Site

end Cool.Lowering
