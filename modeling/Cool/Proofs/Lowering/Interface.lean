import Cool.Lowering.Program
import Cool.Proofs.Lowering.Pool
import Cool.Proofs.Lowering.Site
import Cool.Proofs.Typing.Agreement
import Cool.Proofs.Wat.Typing

/-! What a module declares for the classes of a program, and how the smallest pieces of code run
against it. -/

namespace Cool

/-- The types of the operands a function in a method slot takes. -/
def MethodEntry.operands (e : MethodEntry) : List Wat.ValType :=
  Lowering.valueType e.intro :: e.params.map fun p => Lowering.valueType p.type

namespace Lowering

open Wat Typing

/-- What the functions of a program refer to: the types, globals and functions of its classes. -/
structure Provides (m : Module) (ms : Members) (pool : Pool) : Prop where
  fixed : ∀ t ∈ fixedTypes, t ∈ m.types
  object : ∀ c ∈ ms.hierarchy.names, .struct (classType c)
    ((ms.hierarchy.parent? c).map classType) (objectFields c (ms.attributes c c)) ∈ m.types
  table : ∀ c ∈ ms.hierarchy.names, .struct (tableType c)
    ((ms.hierarchy.parent? c).map tableType) (tableFields (ms.methods c c)) ∈ m.types
  slot : ∀ c ∈ ms.hierarchy.names, ∀ e ∈ ms.methods c c, signatureType e ∈ m.types
  tableGlobal : ∀ c ∈ ms.hierarchy.names,
    m.HasGlobal (tableGlobal c) (.ref false (tableType c))
  constants : ∀ g ∈ pool.globals, g ∈ m.globals
  tag : m.HasTag abortTag [.i32]
  helpers : ∀ f ∈ boxing ++ [stringEqualsDefinition, objectEqualsDefinition], f ∈ m.funcs
  allocator : ∀ c ∈ ms.hierarchy.names, m.HasFunc (newFunc c) [] [objectType c]
  initializer : ∀ c ∈ ms.hierarchy.names, c.isPrimitive = false →
    m.HasFunc (initFunc c) [valueType c] []
  generic : ∀ c ∈ ms.hierarchy.names, ∀ e ∈ ms.methods c c,
    m.HasFunc e.genericId e.operands [valueType (resultLayout e)]
  implementation : ∀ c ∈ ms.hierarchy.names, ∀ e ∈ ms.methods c c,
    ¬ (e.name = .copy ∨ e.name = .typeName) →
    m.HasFunc e.implementationId e.operands [valueType (resultLayout e)]

/-! ## Pooled constants -/

namespace Pool

theorem mem_globals_int {pool : Pool} {n : Int32} {g : String} (hg : pool.int n = .ok g) :
    boxed g .int (const n) ∈ pool.globals := by
  unfold int at hg
  split at hg
  · rename_i hn
    cases hg
    exact List.mem_append_left _ (List.mem_append_right _ (List.mem_map_of_mem hn))
  · cases hg

theorem mem_globals_bool (pool : Pool) (b : Bool) :
    boxed (if b then trueGlobal else falseGlobal) .bool (const (if b then 1 else 0)) ∈
      pool.globals := by
  cases b <;> simp [globals, boolGlobals]

theorem mem_stringDefinitions {ss : List Symbol} {k i : Nat} {s : Symbol} (hs : ss[i]? = some s) :
    boxed (stringGlobal (k + i)) .string (chars s.text) ∈ stringDefinitions k ss := by
  induction ss generalizing k i with
  | nil => cases hs
  | cons s' ss ih =>
      cases i with
      | zero =>
          cases hs
          exact List.mem_cons_self
      | succ i =>
          have hmem := ih (k := k + 1) hs
          rw [Nat.add_right_comm] at hmem
          exact List.mem_cons_of_mem _ hmem

theorem mem_globals_text {pool : Pool} {v g : String} (hg : pool.text v = .ok g) :
    boxed g .string (chars v) ∈ pool.globals := by
  obtain ⟨s, i, hs, hi, rfl⟩ := text_eq_ok hg
  obtain rfl := (Interner.get?_of_find? hs).1
  obtain ⟨hlt, hsame, -⟩ := List.findIdx?_eq_some_iff_getElem.mp hi
  have hmem := mem_stringDefinitions (k := 0)
    (List.getElem?_eq_some_iff.mpr ⟨hlt, eq_of_beq hsame⟩)
  rw [Nat.zero_add] at hmem
  exact List.mem_append_right _ hmem

end Pool

namespace Provides

/-! ## Types -/

section

variable {m : Module} {ms : Members} {pool : Pool} (hm : Provides m ms pool)

include hm

theorem defines {c : Name} (hc : c ∈ ms.hierarchy.names) : m.Defines (classType c) :=
  ⟨_, hm.object c hc, rfl⟩

theorem hasObject {c : Name} (hc : c ∈ ms.hierarchy.names) :
    m.HasStruct (classType c) (objectFields c (ms.attributes c c)) :=
  ⟨_, hm.object c hc⟩

theorem hasTable {c : Name} (hc : c ∈ ms.hierarchy.names) :
    m.HasStruct (tableType c) (tableFields (ms.methods c c)) :=
  ⟨_, hm.table c hc⟩

/-- Inheritance is declared. -/
theorem extends_of_inherits {c d : Name} (hcd : ms.hierarchy.Inherits c d) :
    m.Extends (classType c) (classType d) := by
  refine Relation.ReflTransGen.lift classType (fun a p hp => ?_) _ _ hcd
  have hstruct := hm.object a (Hierarchy.mem_names_of_parent? hp)
  rw [hp] at hstruct
  exact ⟨_, hstruct⟩

theorem subtype_of_inherits {c d : Name} (hcd : ms.hierarchy.Inherits c d) :
    Subtype m (valueType c) (valueType d) :=
  .ref id (hm.extends_of_inherits hcd)

theorem subtype_object (hr : ms.hierarchy.Rooted) (n : Bool) {c : Name}
    (hc : c ∈ ms.hierarchy.names) : Subtype m (.ref n (classType c)) (valueType .object) :=
  .ref (fun h => nomatch h) (hm.extends_of_inherits (Hierarchy.inherits_object hr hc))

omit hm in
theorem subtype_nullable (c : Name) : Subtype m (objectType c) (valueType c) :=
  .ref (fun _ => rfl) .refl

theorem hasFunc_helper {f : Func}
    (hf : f ∈ boxing ++ [stringEqualsDefinition, objectEqualsDefinition]) :
    m.HasFunc f.name (f.params.map (·.2)) f.results :=
  .inl ⟨f, hm.helpers f hf, rfl, rfl, rfl⟩

/-! ## Constants -/

theorem hasGlobal_int {n : Int32} {g : String} (hg : pool.int n = .ok g) :
    m.HasGlobal g (objectType .int) :=
  ⟨_, hm.constants _ (Pool.mem_globals_int hg), rfl, rfl⟩

theorem hasGlobal_bool (b : Bool) :
    m.HasGlobal (if b then trueGlobal else falseGlobal) (objectType .bool) :=
  ⟨_, hm.constants _ (Pool.mem_globals_bool pool b), rfl, rfl⟩

theorem hasGlobal_text {v g : String} (hg : pool.text v = .ok g) :
    m.HasGlobal g (objectType .string) :=
  ⟨_, hm.constants _ (Pool.mem_globals_text hg), rfl, rfl⟩

end

/-! ## Code -/

variable {Γ : CodeContext}

theorem runs_global {g : String} {c : Name} (hg : Γ.module.HasGlobal g (objectType c)) :
    Γ.Runs [.plain (.globalGet g) []] [] [valueType c] :=
  (CodeContext.Runs.op (.globalGet hg) .nil).subsume (.singleton (subtype_nullable c))

/-- Any object may be cast to any class. -/
theorem runs_cast {cx : Context} {pool : Pool} (hm : Provides Γ.module cx.members pool)
    (hcx : cx.Proper) {n : Bool} {found want : Name} (hfound : found ∈ cx.hierarchy.names)
    (hwant : want ∈ cx.hierarchy.names) :
    Γ.Runs [.plain (.refCast (.ref n (classType want))) []] [valueType found]
      [.ref n (classType want)] :=
  .op (.refCast (hm.defines hwant) (hm.subtype_object hcx.rooted n hwant))
    (.singleton (hm.subtype_object hcx.rooted true hfound))

end Provides

/-- Code that leaves a value of the class it names. -/
structure Code.Typed (code : Code) (cx : Context) (Γ : CodeContext) : Prop where
  mem : code.cls ∈ cx.hierarchy.names
  runs : Γ.Runs code.instrs [] [valueType code.cls]

theorem runs_boxed {Γ : CodeContext} {ms : Members} {pool : Pool}
    (hm : Provides Γ.module ms pool) {c : Name} (hc : c = .int ∨ c = .bool) {is : List Instr}
    (his : Γ.Runs is [] [.i32]) : Γ.Runs (boxed is c).instrs [] [valueType c] := by
  have hbox : Γ.module.HasFunc (boxFunc c) [.i32] [objectType c] := by
    rcases hc with rfl | rfl
    · exact hm.hasFunc_helper (f := boxIntDefinition) (by simp [boxing])
    · exact hm.hasFunc_helper (f := boxBoolDefinition) (by simp [boxing])
  refine his.append ((CodeContext.Runs.op (.call hbox) (.refl _)).subsume (.singleton ?_))
  exact Provides.subtype_nullable c

end Lowering

end Cool
