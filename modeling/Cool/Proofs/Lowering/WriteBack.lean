import Cool.Proofs.Lowering.FreeAssignment
import Cool.Proofs.Wat.Exceptions

/-! What a lifted function takes and hands back. Its parameters are the visible locals with the
variable it binds, it hands back the outer ones that its body assigns free, and the code after a
call stores each of them into the local it came from. -/

namespace Cool.Lowering

open Wat

/-! ## Visible variables -/

/-- Variables in the order of their outermost bindings, each with its innermost binding. -/
abbrev Visible := List (Name × Binding)

/-- The locals among visible variables, with their types. -/
def Visible.locals (vs : Visible) : List (Name × Name) :=
  vs.filterMap fun (x, b) => if b.place = .local then some (x, b.type) else none

/-- The locals that are passed to a function around a binding. The variable stands in the place of
the local it hides, or after all locals; where no name is given nothing is bound. -/
def Visible.passed (vs : Visible) (x type : Name) : List (Name × Name) :=
  if x = .anonymous then vs.locals else Scope.bindIn x type vs.locals

/-- What is visible where a local is bound. -/
def Visible.bind (vs : Visible) (x type : Name) : Visible :=
  Scope.bindIn x ⟨.local, type⟩ vs

namespace Site

variable {site : Site}

/-- What is visible where an expression is lowered. -/
def visible (site : Site) : Visible :=
  site.scope.visible

theorem visible_bind (x type : Name) : (site.bind x type).visible = site.visible.bind x type :=
  Scope.visible_enterWith site.scope [(x, ⟨.local, type⟩)]

theorem locals_eq : site.locals = site.visible.locals.map fun p => ⟨p.1, p.2⟩ := by
  rw [locals, Visible.locals, List.map_filterMap, visible]
  refine List.filterMap_congr fun p _ => ?_
  by_cases hplace : p.2.place = .local <;> simp [hplace]

theorem names_locals : site.locals.map (·.name) = site.visible.locals.map (·.1) := by
  rw [locals_eq, List.map_map]
  rfl

theorem visible_locals_nodup : (site.visible.locals.map (·.1)).Nodup :=
  names_locals ▸ site.locals_nodup

theorem localsWith_eq (x type : Name) :
    site.localsWith x type = (site.visible.passed x type).map fun p => ⟨p.1, p.2⟩ := by
  by_cases hanonymous : x = .anonymous
  · rw [localsWith, Visible.passed, if_pos hanonymous, if_pos hanonymous, locals_eq]
  have hany : site.locals.any (·.name = x) = true ↔ x ∈ site.visible.locals.map (·.1) := by
    rw [← names_locals, List.any_eq_true, List.mem_map]
    simp
  rw [localsWith, Visible.passed, if_neg hanonymous, if_neg hanonymous,
    Scope.bindIn_eq visible_locals_nodup]
  by_cases hx : x ∈ site.visible.locals.map (·.1)
  · rw [if_pos (hany.mpr hx), if_pos hx, locals_eq, List.map_map, List.map_map]
    refine List.map_congr_left fun p _ => ?_
    by_cases hpx : p.1 = x <;> simp [hpx]
  · rw [if_neg (mt hany.mp hx), if_neg hx, locals_eq, List.map_append]
    rfl

end Site

/-! ## Lift points -/

/-- Where a function is lifted: around the body of a let or of a branch, which binds a variable, and
around the tests of a case. -/
inductive LiftPoint where
  | binding (x type : Name) (body : Expr)
  | select (branches : List Branch)

namespace LiftPoint

/-- The variables a lifted function takes. -/
def taken (k : LiftPoint) (vs : Visible) : List (Name × Name) :=
  match k with
  | binding x type _ => vs.passed x type
  | select _ => vs.locals

/-- Whether an outer variable is assigned free. The function around the tests of a case binds
nothing, which counts as a variable without a name. -/
def assigns (k : LiftPoint) (y : Name) : Bool :=
  match k with
  | binding x _ body => decide (y ≠ x) && body.assigns y
  | select branches => decide (y ≠ .anonymous) && branches.any (Branch.assigns y)

/-- The variables a lifted function hands back. -/
def back (k : LiftPoint) (vs : Visible) : List (Name × Name) :=
  (k.taken vs).filter fun p => k.assigns p.1

/-- The parameters between the receiver and the variables. -/
def leading : LiftPoint → List (String × ValType)
  | binding _ _ _ => []
  | select _ => [(scrutineeLocal, valueType .object)]

/-- The code that leaves the value of a lifted function. -/
def IsCode (k : LiftPoint) (cls : Name) (vs : Visible) (inner : List Instr) : Prop :=
  match k with
  | binding x type body => ∃ site s code s' want, site.current = cls ∧
      site.visible = vs.bind x type ∧ Lowers site body s code s' ∧ inner = site.coerced want code
  | select _ => ∃ value tests,
      inner = [.block matchedLabel [value]
        (tests ++ [.plain (.throw abortTag) [const abortNoBranch]])]

end LiftPoint

/-- The parameter for a variable in the functions of a class. -/
def slot (cls : Name) (p : Name × Name) : String × ValType :=
  (localId p.1, valueType (Members.resolve p.2 cls))

/-- Stores operands into locals, from the last to the first. -/
def storeBack (ids : List String) : List Instr :=
  ids.reverse.map fun x => .plain (.localSet x) []

/-! ## Running -/

/-- A function whose body leaves a value and hands back some locals. Whatever values the locals had
in the function, the code after the call stores them into the locals of the same names, and changes
nothing else. -/
structure HandsBack (g : Func) (inner : List Instr) (ids : List String) : Prop where
  body : g.body = inner ++ ids.map getLocal
  stores : ∀ (w : Module) (ν μ : Memory), (∀ x ∈ ids, (ν.locals x).isSome) →
    (∀ x ∈ ids, (μ.locals x).isSome) → ∃ returned μ', returned.length + 1 = g.results.length ∧
      w.Does (ids.map getLocal) ν [] ν returned ∧ w.Does (storeBack ids) μ returned μ' [] ∧
      μ'.store = μ.store ∧ ∀ z, μ'.locals z = if z ∈ ids then ν.locals z else μ.locals z
  runs : ∀ (w : Module) (μ ν : Memory) (args : List Val) (v : Val) (rest : List Val),
    w.definitions g.name = [g] → args.length = g.params.length →
    FinishesAll w inner ⟨⟨μ.store, g.entry args⟩, []⟩ (.next ⟨ν, [v]⟩) →
    (∀ x ∈ ids, (μ.locals x).isSome) →
    ∃ μ', FinishesAll w (.plain (.call g.name) [] :: storeBack ids) ⟨μ, args.reverse ++ rest⟩
        (.next ⟨μ', v :: rest⟩) ∧
      μ'.store = ν.store ∧ ∀ z, μ'.locals z = if z ∈ ids then ν.locals z else μ.locals z

theorem does_storeBack (w : Module) {ids : List String} {ν μ : Memory}
    (hν : ∀ x ∈ ids, (ν.locals x).isSome) (hμ : ∀ x ∈ ids, (μ.locals x).isSome) :
    ∃ returned μ', returned.length = ids.length ∧ w.Does (ids.map getLocal) ν [] ν returned ∧
      w.Does (storeBack ids) μ returned μ' [] ∧ μ'.store = μ.store ∧
      ∀ z, μ'.locals z = if z ∈ ids then ν.locals z else μ.locals z := by
  let value := fun x => (ν.locals x).getD .null
  have hvalue : ∀ x ∈ ids, ν.locals x = some (value x) := by
    intro x hx
    obtain ⟨v, hv⟩ := Option.isSome_iff_exists.mp (hν x hx)
    simp [value, hv]
  refine ⟨(ids.map value).reverse, μ.setAll ids value, by simp,
    .pushes_map fun x hx => .getLocal (hvalue x hx), .setLocals hμ value,
    μ.setAll_store ids value, fun z => ?_⟩
  rw [Memory.setAll_locals]
  by_cases hz : z ∈ ids
  · rw [if_pos hz, if_pos hz, hvalue z hz]
  · rw [if_neg hz, if_neg hz]

/-- A function that ends with the locals it hands back, which are parameters of it. -/
theorem handsBack {g : Func} {inner : List Instr} {ids : List String}
    (hbody : g.body = inner ++ ids.map getLocal) (hresults : g.results.length = ids.length + 1)
    (hids : ∀ x ∈ ids, x ∈ g.params.map (·.1)) : HandsBack g inner ids := by
  refine ⟨hbody, fun w ν μ hν hμ => ?_, fun w μ ν args v rest hdef hargs hinner hμ => ?_⟩
  · obtain ⟨returned, μ', hlength, hstore⟩ := does_storeBack w hν hμ
    exact ⟨returned, μ', by rw [hlength, hresults], hstore⟩
  · -- The function loses none of its parameters, so it can hand them back.
    have hν : ∀ x ∈ ids, (ν.locals x).isSome := fun x hx =>
      hinner.keeps (Func.isSome_entry hargs (hids x hx))
    obtain ⟨returned, μ', hlength, hgets, hsets, hstore, hlocals⟩ :=
      @does_storeBack w ids ν ⟨ν.store, μ.locals⟩ hν hμ
    have hrun : FinishesAll w g.body ⟨⟨μ.store, g.entry args⟩, []⟩
        (.next ⟨ν, returned ++ [v]⟩) := by
      rw [hbody]
      exact hinner.append (hgets [v]).finishes
    have hcall : Finishes w (.plain (.call g.name) []) ⟨μ, args.reverse ++ rest⟩
        (.next ⟨⟨ν.store, μ.locals⟩, (returned ++ [v]) ++ rest⟩) :=
      .plain .nil (.returned hdef rfl hargs hrun (by simp [hlength, hresults]))
    refine ⟨μ', .cons hcall ?_, hstore, hlocals⟩
    have hset := (hsets (v :: rest)).finishes
    rwa [List.append_assoc]

/-! ## Lifted functions -/

/-- The call of a lifted function with its arguments on the stack, and what is stored after it. -/
def LiftPoint.call (k : LiftPoint) (vs : Visible) (name : String) : List Instr :=
  .plain (.call name) [] :: storeBack ((k.back vs).map fun p => localId p.1)

/-- A function that is lifted at a point where some variables are visible. -/
structure LiftPoint.WritesBack (k : LiftPoint) (cls : Name) (vs : Visible) (g : Func) :
    Prop where
  distinct : ((k.taken vs).map (·.1)).Nodup
  params : g.params =
    (selfLocal, valueType cls) :: (k.leading ++ (k.taken vs).map (slot cls))
  results : ∃ value, g.results = value :: (k.back vs).map fun p => (slot cls p).2
  body : ∃ inner, k.IsCode cls vs inner ∧
    HandsBack g inner ((k.back vs).map fun p => localId p.1)

section

variable {site : Site} {k : LiftPoint}

theorem taken_nodup : ((k.taken site.visible).map (·.1)).Nodup := by
  cases k with
  | binding x type body =>
      have hnodup := site.localsWith_nodup x type
      rw [Site.localsWith_eq, List.map_map] at hnodup
      exact hnodup
  | select branches => exact Site.visible_locals_nodup

/-- A function that takes the variables of its lift point and hands back those that are assigned. -/
theorem liftedFunc_writesBack {name : String} {value : ValType} {back : List (Name × ValType)}
    {ps : List (Name × ValType)} {inner : List Instr}
    (hps : ps = (k.taken site.visible).map fun p =>
      (p.1, valueType (Members.resolve p.2 site.current)))
    (hback : back = ps.filter fun p => k.assigns p.1)
    (hcode : k.IsCode site.current site.visible inner) (locals : List (String × ValType)) :
    k.WritesBack site.current site.visible
      (liftedFunc name ((selfLocal, valueType site.current) :: (k.leading ++ liftedParams ps))
        value back locals inner) ∧
      k.call site.visible name = callLifted name back := by
  have hvars : back = (k.back site.visible).map fun p =>
      (p.1, valueType (Members.resolve p.2 site.current)) := by
    rw [hback, hps, List.filter_map]
    rfl
  have hids : back.map (fun p => localId p.1) =
      (k.back site.visible).map fun p => localId p.1 := by
    rw [hvars, List.map_map]
    rfl
  have hparams : liftedParams ps = (k.taken site.visible).map (slot site.current) := by
    rw [hps, liftedParams, List.map_map]
    rfl
  refine ⟨⟨taken_nodup, by rw [← hparams]; rfl, ⟨value, ?_⟩,
    ⟨inner, hcode, handsBack ?_ ?_ ?_⟩⟩, ?_⟩
  · rw [liftedFunc, hvars, List.map_map]
    rfl
  · rw [liftedFunc, ← hids, List.map_map]
    rfl
  · simp [liftedFunc, hvars]
  · intro x hx
    obtain ⟨p, hp, rfl⟩ := List.mem_map.mp hx
    refine List.mem_map.mpr ⟨slot site.current p, ?_, rfl⟩
    rw [liftedFunc, hparams]
    exact List.mem_cons_of_mem _
      (List.mem_append_right _ (List.mem_map_of_mem (List.mem_of_mem_filter hp)))
  · rw [LiftPoint.call, callLifted, storeBack, ← hids, ← List.map_reverse, List.map_map]
    rfl

/-- The function around a binding. -/
theorem bindingFunc_writesBack {name : String} {x type value : Name} {body : Expr}
    {ps back : List (Name × ValType)} {code : Code} {s s' : Progress}
    (hps : site.typedLocals (site.localsWith x type) = .ok ps)
    (hbody : Lowers (site.bind x type) body (s.inFrame {}) code s')
    (hback : back = handedBack ps s'.frame.assigned x) :
    (LiftPoint.binding x type body).WritesBack site.current site.visible
      (liftedFunc name ((selfLocal, valueType site.current) :: liftedParams ps) (valueType value)
        back s'.frame.locals ((site.bind x type).coerced value code)) ∧
      (LiftPoint.binding x type body).call site.visible name = callLifted name back := by
  have htyped : ps = ((LiftPoint.binding x type body).taken site.visible).map fun p =>
      (p.1, valueType (Members.resolve p.2 site.current)) := by
    obtain ⟨rfl, -⟩ := Site.typedLocals_eq_ok hps
    rw [Site.localsWith_eq, List.map_map]
    rfl
  have hassigned : back = ps.filter fun p => (LiftPoint.binding x type body).assigns p.1 := by
    rw [hback]
    refine List.filter_congr fun p hp => ?_
    have hlocal : ((site.bind x type).localTypes p.1).isSome := by
      have hmem := List.mem_map_of_mem (f := (·.1)) hp
      rw [names_typedLocals hps, Site.mem_names_localsWith] at hmem
      rw [Site.localTypes_bind, Typing.Env.bind]
      split
      · rfl
      · rename_i hpx
        rwa [passed_of_ne hpx] at hmem
    rw [Bool.eq_iff_iff]
    simp [LiftPoint.assigns, hbody.notes p.1, hlocal, Progress.inFrame]
  exact liftedFunc_writesBack htyped hassigned
    ⟨site.bind x type, _, code, _, value, rfl, Site.visible_bind x type, hbody, rfl⟩ _

/-- The function that selects a branch. -/
theorem selectFunc_writesBack {name : String} {value : Name} {branches : List Branch}
    {ps : List (Name × ValType)} {tests : List Instr} {assigned : List Name} {s s' : Progress}
    (hps : site.typedLocals site.locals = .ok ps)
    (harms : LowersArms site name value 0
      (deepestFirst (fun b => site.members.hierarchy.depth b.type) branches) s tests assigned s') :
    (LiftPoint.select branches).WritesBack site.current site.visible
      (selectFunc site name value ps (handedBack ps assigned .anonymous) tests) ∧
      (LiftPoint.select branches).call site.visible name =
        callLifted name (handedBack ps assigned .anonymous) := by
  have htyped : ps = ((LiftPoint.select branches).taken site.visible).map fun p =>
      (p.1, valueType (Members.resolve p.2 site.current)) := by
    obtain ⟨rfl, -⟩ := Site.typedLocals_eq_ok hps
    rw [Site.locals_eq, List.map_map]
    rfl
  have hassigned : handedBack ps assigned .anonymous =
      ps.filter fun p => (LiftPoint.select branches).assigns p.1 := by
    refine List.filter_congr fun p hp => ?_
    have hlocal : (site.localTypes p.1).isSome := by
      rw [← Site.mem_names_locals, ← names_typedLocals hps]
      exact List.mem_map_of_mem hp
    rw [Bool.eq_iff_iff]
    simp [LiftPoint.assigns, harms.notes.2 p.1, hlocal, any_deepestFirst]
  exact liftedFunc_writesBack htyped hassigned ⟨_, tests, rfl⟩ []

end

end Cool.Lowering
