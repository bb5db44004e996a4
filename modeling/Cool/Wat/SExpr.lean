import Cool.Fault

/-! S-expressions and their layout: a list stays on one line while it is short, and otherwise puts
each of its parts on a line of its own. -/

namespace Cool

inductive SExpr where
  | atom (text : String)
  | list (items : List SExpr)

namespace SExpr

instance : Inhabited SExpr := ⟨list []⟩

mutual

/-- An S-expression on one line. -/
def flat : SExpr → String
  | atom text => text
  | list items => "(" ++ flatItems items ++ ")"
termination_by structural e => e

/-- S-expressions with a blank between each two. -/
def flatItems : List SExpr → String
  | [] => ""
  | e :: rest => flat e ++ flatRest rest
termination_by structural es => es

/-- S-expressions with a blank before each. -/
def flatRest : List SExpr → String
  | [] => ""
  | e :: rest => " " ++ flat e ++ flatRest rest
termination_by structural es => es

end

/-- The atom a list starts with, if it starts with one. -/
def head : SExpr → String
  | list (atom text :: _) => text
  | _ => ""

/-- The identifier after the head of a definition. -/
def name : SExpr → String
  | list (_ :: atom text :: _) => if text.startsWith "$" then text else ""
  | _ => ""

def items : SExpr → List SExpr
  | atom _ => []
  | list items => items

/-- The width up to which a list stays on one line, in bytes. -/
def lineWidth : Nat := 96

/-- Lists with these heads always break. -/
def breaksAlways (head : String) : Bool :=
  head ∈ ["module", "rec", "func"]

/-- Whether a list fits on one line below `depth` others. -/
def fits (indent : String) (depth : Nat) (e : SExpr) : Bool :=
  !breaksAlways e.head && decide (e.flat.utf8ByteSize + depth * indent.utf8ByteSize ≤ lineWidth)

/-- A new line below `depth` lists. -/
def newline (indent : String) (depth : Nat) : String :=
  "\n" ++ String.join (List.replicate depth indent)

mutual

/-- The layout of an S-expression below `depth` lists. -/
def layout (indent : String) (depth : Nat) : SExpr → String
  | atom text => text
  | list items =>
    if fits indent depth (list items) then flat (list items)
    else "(" ++ layoutLead indent depth true items ++ ")"
termination_by structural e => e

/-- The parts of a broken list: the atoms it starts with stay on the first line. -/
def layoutLead (indent : String) (depth : Nat) (first : Bool) : List SExpr → String
  | [] => ""
  | atom text :: rest =>
    (if first then "" else " ") ++ text ++ layoutLead indent depth false rest
  | list items :: rest =>
    newline indent (depth + 1) ++ layout indent (depth + 1) (list items) ++
      layoutRest indent depth rest
termination_by structural es => es

/-- The parts of a broken list after its first line. -/
def layoutRest (indent : String) (depth : Nat) : List SExpr → String
  | [] => ""
  | e :: rest =>
    newline indent (depth + 1) ++ layout indent (depth + 1) e ++ layoutRest indent depth rest
termination_by structural es => es

end

/-- An S-expression as lines of text. -/
def format (indent : String) (e : SExpr) : String :=
  e.layout indent 0 ++ "\n"

/-- What a list can be made from. -/
inductive Part where
  | node (e : SExpr)
  | text (s : String)
  | number (n : Int)
  /-- Elements that join the list one by one. -/
  | splice (items : List SExpr)
  /-- A value of another kind, which has no place in a list. -/
  | foreign (kind : String)

def Part.items : Part → Except Fault (List SExpr)
  | node e => .ok [e]
  | text s => .ok [atom s]
  | number n => .ok [atom (toString n)]
  | splice items => .ok items
  | foreign kind => .error (.unplaceable kind)

/-- A list from its parts. -/
def ofParts (parts : List Part) : Except Fault SExpr := do
  return list (← parts.mapM Part.items).flatten

end SExpr

/-- The definitions of a module by section. -/
structure Sections where
  imports : List SExpr
  types : List SExpr
  globals : List SExpr
  funcs : List SExpr

namespace Sections

/-- A module, whose types form one recursive group. -/
def toSExpr (s : Sections) : SExpr :=
  .list (.atom "module" :: s.imports ++ .list (.atom "rec" :: s.types) :: s.globals ++ s.funcs)

def format (s : Sections) (indent : String) : String :=
  s.toSExpr.format indent

/-- The first definition of a name. -/
def definition? (defs : List SExpr) (name : String) : Option SExpr :=
  defs.find? (·.name = name)

end Sections

end Cool
