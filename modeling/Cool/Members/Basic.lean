import Cool.Fault
import Cool.Hierarchy.Basic

/-! The attributes and methods of every class, inherited ones included, each in its slot. -/

namespace Cool

/-- How a method came to be in a class. -/
inductive Origin where
  | introduced
  | inherited
  | overridden
deriving DecidableEq, Repr

namespace Origin

def text : Origin → String
  | introduced => "new"
  | inherited => "inherited"
  | overridden => "overridden"

/-- The text of an origin given by its index, which may name none. -/
def textOfIndex : Int → String
  | 0 => introduced.text
  | 1 => inherited.text
  | 2 => overridden.text
  | i => "Origin(" ++ toString i ++ ")"

end Origin

structure Parameter where
  name : Name
  type : Name
deriving DecidableEq, Repr

/-- A method as it is seen from one class. `intro` is the class that introduced its slot, and
`definer` the class whose body runs. -/
structure MethodEntry where
  name : Name
  params : List Parameter
  result : Name
  origin : Origin
  slot : Nat
  intro : Name
  definer : Name
  span : Span
deriving DecidableEq, Repr

namespace MethodEntry

/-- The name of the function type of a method slot. -/
def signatureId (m : MethodEntry) : String :=
  "$" ++ m.intro.text ++ "." ++ m.name.text ++ ".signature"

/-- The name of the function that is called through the table of the receiver. -/
def genericId (m : MethodEntry) : String :=
  "$" ++ m.intro.text ++ "." ++ m.name.text ++ ".generic"

/-- The name of the function that holds the body. -/
def implementationId (m : MethodEntry) : String :=
  "$" ++ m.definer.text ++ "." ++ m.name.text ++ ".implementation"

end MethodEntry

/-- An attribute as it is seen from one class; `owner` declares it. -/
structure AttributeEntry where
  name : Name
  type : Name
  slot : Nat
  owner : Name
  span : Span
deriving DecidableEq, Repr

/-- The members of a class in the order of their slots. -/
structure ClassMembers where
  cls : Name
  attributes : List AttributeEntry := []
  methods : List MethodEntry := []
deriving DecidableEq, Repr

/-- The members of all classes of a hierarchy, and how many slots they use. -/
structure Members where
  hierarchy : Hierarchy
  classes : List ClassMembers := []
  attributeCount : Nat := 0
  methodCount : Nat := 0

namespace Members

/-- The class a type stands for inside the class `current`. -/
def resolve (cls current : Name) : Name :=
  if cls = .selfType then current else cls

def of? (ms : Members) (cls : Name) : Option ClassMembers :=
  ms.classes.find? (·.cls = cls)

def attributes (ms : Members) (cls current : Name) : List AttributeEntry :=
  match ms.of? (resolve cls current) with
  | some c => c.attributes
  | none => []

def methods (ms : Members) (cls current : Name) : List MethodEntry :=
  match ms.of? (resolve cls current) with
  | some c => c.methods
  | none => []

def attribute? (ms : Members) (cls name current : Name) : Option AttributeEntry :=
  (ms.attributes cls current).find? (·.name = name)

def method? (ms : Members) (cls name current : Name) : Option MethodEntry :=
  (ms.methods cls current).find? (·.name = name)

def hasMethod (ms : Members) (cls name current : Name) : Bool :=
  (ms.method? cls name current).isSome

/-- Whether a type may be declared: a class, or the self type. -/
def typeDefined (ms : Members) (t : Name) : Bool :=
  decide (t = .selfType) || ms.hierarchy.has t

/-- A scope of one frame that binds every attribute of a class to its type. -/
def attributeScope (ms : Members) (cls : Name) : Except Fault (Scope Name Name) :=
  match ms.of? cls with
  | none => .error (.notInstalled cls)
  | some c => .ok (({} : Scope Name Name).enterWith (c.attributes.map fun a => (a.name, a.type)))

end Members

end Cool
