import Cool.Hierarchy.Builtin

/-! The class hierarchy: which classes there are, which class each inherits from, and the order
that follows from it. Every walk up the hierarchy is bounded by the number of classes, so that it
ends even where the parents run in a circle. -/

namespace Cool

/-- A class of a hierarchy with the class it inherits from. -/
structure ClassEntry where
  decl : ClassDecl
  parent : Name

def ClassEntry.name (e : ClassEntry) : Name :=
  e.decl.name

/-- The classes in the order in which they were installed, and whether they form a tree below the
root. -/
structure Hierarchy where
  entries : List ClassEntry
  valid : Bool := false

namespace Hierarchy

def entry? (h : Hierarchy) (c : Name) : Option ClassEntry :=
  h.entries.find? (·.name = c)

/-- Whether a class is installed. -/
def has (h : Hierarchy) (c : Name) : Bool :=
  (h.entry? c).isSome

/-- The declaration of a class. -/
def decl? (h : Hierarchy) (c : Name) : Option ClassDecl :=
  (h.entry? c).map (·.decl)

/-- The classes in the order in which they were installed. -/
def names (h : Hierarchy) : List Name :=
  h.entries.map (·.name)

def size (h : Hierarchy) : Nat :=
  h.entries.length

/-- The parent of a class. The root has none. -/
def parent? (h : Hierarchy) (c : Name) : Option Name :=
  if c = .object then none else (h.entry? c).map (·.parent)

/-- The direct subclasses of a class, in the order in which they were installed. -/
def children (h : Hierarchy) (c : Name) : List Name :=
  if h.valid then h.names.filter (fun d => h.parent? d = some c) else []

/-- Counts at most `fuel` steps from a class towards the root. -/
def depthWithin (h : Hierarchy) : Nat → Name → Nat
  | 0, _ => 0
  | fuel + 1, c =>
    match h.parent? c with
    | none => 0
    | some p => h.depthWithin fuel p + 1

/-- The number of steps from a class to the root. -/
def depth (h : Hierarchy) (c : Name) : Nat :=
  h.depthWithin (h.size + 1) c

/-- Looks for a class among `fuel` classes from `c` upwards. -/
def reachesWithin (h : Hierarchy) : Nat → Name → Name → Bool
  | 0, _, _ => false
  | fuel + 1, c, target =>
    if c = target then true
    else
      match h.parent? c with
      | none => false
      | some p => h.reachesWithin fuel p target

/-- Whether a class is another one or inherits from it. -/
def isBelow (h : Hierarchy) (c target : Name) : Bool :=
  h.reachesWithin (h.size + 1) c target

/-- Whether a type conforms to another inside the class `current`. The self type conforms to
itself and to the ancestors of `current`, and nothing else conforms to it. The type of an ill-typed
expression conforms both ways. -/
def conforms (h : Hierarchy) (child parent current : Name) : Bool :=
  if child = .errType ∨ parent = .errType then true
  else if parent = .selfType then decide (child = .selfType)
  else if child = .selfType then h.isBelow current parent
  else h.isBelow child parent

/-- The first of `fuel` classes from `b` upwards that `a` is below. -/
def joinWithin (h : Hierarchy) (a : Name) : Nat → Name → Name
  | 0, _ => .object
  | fuel + 1, b =>
    if h.isBelow a b then b
    else
      match h.parent? b with
      | none => .object
      | some p => h.joinWithin a fuel p

/-- The closest class that two classes are below. -/
def joinClasses (h : Hierarchy) (a b : Name) : Name :=
  h.joinWithin a (h.size + 1) b

/-- The closest type two types conform to inside the class `current`. -/
def join (h : Hierarchy) (a b current : Name) : Name :=
  if a = .errType then b
  else if b = .errType then a
  else if a = .selfType then
    if b = .selfType then .selfType else h.joinClasses current b
  else if b = .selfType then h.joinClasses current a
  else h.joinClasses a b

/-- What a visit in topological order has met, and the classes it has put in order. -/
structure Visit where
  met : List Name := []
  order : List Name := []

/-- Puts a class in order after its ancestors, of which at most `fuel` are followed. -/
def visit (h : Hierarchy) : Nat → Visit → Name → Visit
  | 0, s, _ => s
  | fuel + 1, s, c =>
    if c ∈ s.met then s
    else
      let s := { s with met := c :: s.met }
      let s := match h.parent? c with
        | some p => if h.has p then h.visit fuel s p else s
        | none => s
      { s with order := s.order ++ [c] }

/-- The classes with every parent before its children. -/
def topological (h : Hierarchy) : List Name :=
  (h.names.foldl (h.visit (h.size + 1)) {}).order

end Hierarchy

end Cool
