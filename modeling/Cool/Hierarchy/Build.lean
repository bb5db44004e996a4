import Cool.Hierarchy.Basic
import Cool.Hierarchy.Problem

/-! Building the hierarchy of a program and finding what is wrong with it. -/

namespace Cool.Hierarchy

/-- The entry of a class that may join the installed ones. A class that names no parent inherits
from the root. -/
def entryFor (h : Hierarchy) (c : ClassDecl) : Except Problem ClassEntry :=
  if h.has c.name then .error (.duplicate c.name)
  else if c.name = .selfType then .error .reserved
  else .ok ⟨c, if c.parent = .anonymous then .object else c.parent⟩

/-- Installs classes in order and reports those that cannot be. -/
def install (h : Hierarchy) : List ClassDecl → Hierarchy × List (Report Problem)
  | [] => (h, [])
  | c :: rest =>
    match h.entryFor c with
    | .ok e => install { h with entries := h.entries ++ [e] } rest
    | .error problem =>
      let (h, reports) := install h rest
      (h, ⟨c.span, problem⟩ :: reports)

/-- What is wrong with the parent of a class taken by itself. -/
def parentProblem? (h : Hierarchy) (parent : Name) : Option Problem :=
  if parent ∈ [Name.bool, .int, .string, .selfType] then some (.illegalParent parent)
  else if h.has parent then none
  else some (.undefinedParent parent)

def parentReports (h : Hierarchy) : List (Report Problem) :=
  h.entries.filterMap fun e =>
    if e.name.isBuiltin then none
    else (h.parentProblem? e.parent).map fun problem => ⟨e.decl.span, problem⟩

/-- The first class met twice on the way up from `c`, where `met` holds those met before. -/
def cycleWithin (h : Hierarchy) : Nat → List Name → Name → Option Name
  | 0, _, _ => none
  | fuel + 1, met, c =>
    match h.parent? c with
    | none => none
    | some p => if p ∈ c :: met then some p else h.cycleWithin fuel (c :: met) p

def cycleReports (h : Hierarchy) : List (Report Problem) :=
  h.entries.filterMap fun e =>
    (h.cycleWithin (h.size + 1) [] e.name).map fun member => ⟨e.decl.span, .cycle e.name member⟩

/-- The hierarchy of a program. Cycles are looked for once every parent is in order. -/
def build (p : Program) : Hierarchy × List (Report Problem) :=
  let (h, reports) := install ⟨[], false⟩ (Builtin.classes ++ p.classes)
  let reports := reports ++ h.parentReports
  if reports.isEmpty then
    let cycles := h.cycleReports
    if cycles.isEmpty then ({ h with valid := true }, []) else (h, cycles)
  else (h, reports)

end Cool.Hierarchy
