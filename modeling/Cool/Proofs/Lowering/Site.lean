import Cool.Lowering.Class
import Cool.Proofs.Lowering.Outcome
import Cool.Proofs.Scope
import Cool.Proofs.Typing.Rules

/-! What an expression sees where it is lowered: its locals, the classes that represent types, and
how this agrees with the scope in which it was checked. -/

namespace Cool.Lowering

open Typing (Env Context)

/-- The types that no class represents: that of an absent expression and that of an ill-typed
one. -/
def NoLayout (t : Name) : Prop :=
  t = .anonymous ∨ t = .noType ∨ t = .errType

/-- The types of the locals that are passed to a function around a binding. Where no name is given
nothing is bound. -/
def passed (L : Env) (x t : Name) : Env :=
  if x = .anonymous then L else L.bind x t

theorem passed_of_ne {L : Env} {x y : Name} (hyx : y ≠ x) (t : Name) : passed L x t y = L y := by
  unfold passed
  split
  · rfl
  · exact if_neg hyx

namespace Site

variable {site : Site}

/-! ## Layouts -/

theorem layout_eq_ok {t c : Name} (hc : site.layout t = .ok c) :
    c = Members.resolve t site.current ∧ ¬ NoLayout t := by
  unfold layout at hc
  unfold Members.resolve
  split at hc
  · rename_i hself
    subst hself
    cases hc
    exact ⟨rfl, by unfold NoLayout; decide⟩
  · rename_i hself
    split at hc
    · cases hc
    · rename_i hlaid
      cases hc
      exact ⟨(if_neg hself).symm, hlaid⟩

theorem layout_of_not {t : Name} (ht : ¬ NoLayout t) :
    site.layout t = .ok (Members.resolve t site.current) := by
  unfold layout Members.resolve
  split
  · rfl
  · exact if_neg ht

theorem exists_layout_iff {t : Name} : (∃ c, site.layout t = .ok c) ↔ ¬ NoLayout t :=
  ⟨fun ⟨_, hc⟩ => (layout_eq_ok hc).2, fun ht => ⟨_, layout_of_not ht⟩⟩

/-- The type of a local as a value. -/
def typedLocal (current : Name) (p : Parameter) : Name × Wat.ValType :=
  (p.name, valueType (Members.resolve p.type current))

theorem typedLocals_of_not {ps : List Parameter} (hps : ∀ p ∈ ps, ¬ NoLayout p.type) :
    site.typedLocals ps = .ok (ps.map (typedLocal site.current)) := by
  induction ps with
  | nil => rfl
  | cons p ps ih =>
      obtain ⟨hp, hrest⟩ := List.forall_mem_cons.mp hps
      have htail := ih hrest
      unfold typedLocals at htail ⊢
      rw [List.mapM_cons, htail, layout_of_not hp]
      rfl

theorem typedLocals_eq_ok {ps : List Parameter} {qs : List (Name × Wat.ValType)}
    (hq : site.typedLocals ps = .ok qs) :
    qs = ps.map (typedLocal site.current) ∧ ∀ p ∈ ps, ¬ NoLayout p.type := by
  have hps : ∀ p ∈ ps, ¬ NoLayout p.type := by
    intro p hp
    obtain ⟨q, hq⟩ := exists_mapM_ok_iff.mp ⟨qs, hq⟩ p hp
    cases hc : site.layout p.type with
    | ok c => exact (layout_eq_ok hc).2
    | error f =>
        rw [hc] at hq
        cases hq
  exact ⟨(Except.ok.inj ((typedLocals_of_not hps).symm.trans hq)).symm, hps⟩

theorem exists_typedLocals_iff {ps : List Parameter} :
    (∃ qs, site.typedLocals ps = .ok qs) ↔ ∀ p ∈ ps, ¬ NoLayout p.type :=
  ⟨fun ⟨_, hq⟩ => (typedLocals_eq_ok hq).2, fun hps => ⟨_, typedLocals_of_not hps⟩⟩

/-! ## Locals -/

/-- The types of the visible locals. -/
def localTypes (site : Site) : Env := fun x =>
  match site.scope.lookup x with
  | some ⟨.local, t⟩ => some t
  | _ => none

theorem localTypes_eq_some {x t : Name} :
    site.localTypes x = some t ↔ site.scope.lookup x = some ⟨.local, t⟩ := by
  unfold localTypes
  split
  · rename_i u hu
    rw [hu]
    simp
  · rename_i hnot
    refine ⟨nofun, fun hx => absurd hx (hnot t)⟩

theorem localTypes_bind (x t : Name) : (site.bind x t).localTypes = site.localTypes.bind x t := by
  funext y
  simp only [localTypes, Site.bind, Scope.lookup_enterWith_singleton, Env.bind]
  by_cases hyx : y = x
  · simp [hyx]
  · simp [hyx]

theorem mem_locals {p : Parameter} : p ∈ site.locals ↔ site.localTypes p.name = some p.type := by
  rw [localTypes_eq_some, ← Scope.mem_visible, locals, List.mem_filterMap]
  constructor
  · rintro ⟨⟨x, b⟩, hmem, heq⟩
    dsimp only at heq
    split at heq
    · rename_i hplace
      cases heq
      obtain ⟨place, type⟩ := b
      cases hplace
      exact hmem
    · cases heq
  · intro hmem
    exact ⟨_, hmem, rfl⟩

theorem locals_nodup (site : Site) : (site.locals.map (·.name)).Nodup := by
  refine (Scope.visible_nodup site.scope).sublist ?_
  unfold locals
  induction site.scope.visible with
  | nil => exact List.Sublist.slnil
  | cons b bs ih =>
      obtain ⟨x, place, type⟩ := b
      cases place with
      | field => exact ih.cons x
      | «local» => exact ih.cons_cons x

/-- Binding a variable changes the type of the local it hides, or adds a local. -/
theorem mem_localsWith {x t : Name} {p : Parameter} :
    p ∈ site.localsWith x t ↔ (passed site.localTypes x t) p.name = some p.type := by
  by_cases hx : x = .anonymous
  · rw [localsWith, passed, if_pos hx, if_pos hx, mem_locals]
  rw [passed, if_neg hx]
  have hother : ∀ q : Parameter, q.name ≠ x →
      (q ∈ site.locals ↔ (site.localTypes.bind x t) q.name = some q.type) := by
    intro q hq
    rw [mem_locals, Env.bind, if_neg hq]
  have hbound : ∀ q : Parameter, q.name = x →
      ((site.localTypes.bind x t) q.name = some q.type ↔ q = ⟨x, t⟩) := by
    rintro ⟨y, u⟩ rfl
    simp [Env.bind, eq_comm]
  rw [localsWith, if_neg hx]
  split
  · rename_i hany
    obtain ⟨q, hq, hqx⟩ := List.any_eq_true.mp hany
    rw [List.mem_map]
    by_cases hp : p.name = x
    · rw [hbound p hp]
      constructor
      · rintro ⟨r, -, hr⟩
        split at hr
        · exact hr.symm
        · rename_i hne
          exact absurd (hr ▸ hp) hne
      · rintro rfl
        exact ⟨q, hq, if_pos (of_decide_eq_true hqx)⟩
    · rw [← hother p hp]
      constructor
      · rintro ⟨r, hr, heq⟩
        split at heq
        · exact absurd (heq ▸ rfl) hp
        · exact heq ▸ hr
      · exact fun hmem => ⟨p, hmem, if_neg hp⟩
  · rename_i hnone
    rw [List.mem_append, List.mem_singleton]
    by_cases hp : p.name = x
    · rw [hbound p hp, or_iff_right]
      intro hmem
      exact hnone (List.any_eq_true.mpr ⟨p, hmem, decide_eq_true hp⟩)
    · rw [← hother p hp, or_iff_left]
      rintro rfl
      exact hp rfl

theorem localsWith_nodup (x t : Name) : ((site.localsWith x t).map (·.name)).Nodup := by
  unfold localsWith
  split
  · exact site.locals_nodup
  split
  · rw [List.map_map]
    have hsame : ((·.name) ∘ fun p : Parameter => if p.name = x then ⟨x, t⟩ else p) =
        (·.name) := by
      funext p
      by_cases hp : p.name = x <;> simp [hp]
    rw [hsame]
    exact site.locals_nodup
  · rename_i hnone
    rw [List.map_append]
    refine List.Nodup.append site.locals_nodup (List.nodup_singleton x) ?_
    refine List.disjoint_singleton.mpr fun hmem => hnone ?_
    obtain ⟨p, hp, hpx⟩ := List.mem_map.mp hmem
    exact List.any_eq_true.mpr ⟨p, hp, decide_eq_true hpx⟩

/-! ## Agreement with the scope of checking -/

/-- A site and the context and scope in which the same expression was checked. Every variable but
the receiver has the same type on both sides, and a field is an attribute of the class. -/
structure Matches (site : Site) (cx : Context) (L : Env) : Prop where
  members : site.members = cx.members
  current : site.current = cx.current
  lookup : ∀ x, x ≠ .self → L x = (site.scope.lookup x).map (·.type)
  fields : ∀ x t, site.scope.lookup x = some ⟨.field, t⟩ →
    ∃ a ∈ cx.members.attributes cx.current cx.current, a.name = x ∧ a.type = t

theorem Matches.bind {cx : Context} {L : Env} (hm : site.Matches cx L) (x t : Name) :
    (site.bind x t).Matches cx (L.bind x t) := by
  refine ⟨hm.members, hm.current, fun y hy => ?_, fun y u hyu => ?_⟩
  · rw [Env.bind, Site.bind]
    simp only [Scope.lookup_enterWith_singleton]
    by_cases hyx : y = x
    · simp [hyx]
    · simp [hyx, hm.lookup y hy]
  · simp only [Site.bind, Scope.lookup_enterWith_singleton] at hyu
    by_cases hyx : y = x
    · simp [hyx] at hyu
    · rw [if_neg hyx] at hyu
      exact hm.fields y u hyu

/-- A variable that was found when checking is found when lowering. -/
theorem Matches.binding {cx : Context} {L : Env} (hm : site.Matches cx L) {x t : Name}
    (hx : x ≠ .self) (ht : L x = some t) : ∃ place, site.scope.lookup x = some ⟨place, t⟩ := by
  rw [hm.lookup x hx] at ht
  obtain ⟨⟨place, u⟩, hb, rfl⟩ := Option.map_eq_some_iff.mp ht
  exact ⟨place, hb⟩

theorem Matches.attributeClass {cx : Context} {L : Env} (hm : site.Matches cx L)
    (hcx : cx.Installed) {x t : Name}
    (hx : site.scope.lookup x = some ⟨.field, t⟩) :
    ∃ a ∈ cx.members.attributes cx.current cx.current, a.name = x ∧ a.type = t ∧
      site.attributeClass x = .ok (attributeLayout a) := by
  obtain ⟨a, ha, rfl, rfl⟩ := hm.fields x t hx
  refine ⟨a, ha, rfl, rfl, ?_⟩
  rw [Site.attributeClass, hm.members, hm.current,
    hcx.coherent.attribute?_of_mem hcx.current_mem ha]

/-- The attribute a field of the receiver holds. -/
theorem Matches.attribute {cx : Context} {L : Env} (hm : site.Matches cx L) (hcx : cx.Installed)
    {x t c : Name} (hx : site.scope.lookup x = some ⟨.field, t⟩)
    (hc : site.attributeClass x = .ok c) :
    ∃ a ∈ cx.members.attributes cx.current cx.current, a.name = x ∧ a.type = t ∧
      c = attributeLayout a := by
  obtain ⟨a, ha, hname, htype, hclass⟩ := hm.attributeClass hcx hx
  exact ⟨a, ha, hname, htype, Except.ok.inj (hc.symm.trans hclass)⟩

theorem Matches.type_of_lookup {cx : Context} {L : Env} (hm : site.Matches cx L) {x t u : Name}
    (hself : x ≠ .self) (hx : L x = some t) {place : Place}
    (hlookup : site.scope.lookup x = some ⟨place, u⟩) : u = t := by
  rw [hm.lookup x hself, hlookup] at hx
  exact Option.some.inj hx

/-- The method a call was checked against is the one it is made to. -/
theorem Matches.method_eq {cx : Context} {L : Env} (hm : site.Matches cx L) (hcx : cx.Installed)
    {t : Name} (ht : cx.IsType t) {f entry : MethodEntry} (hoffers : cx.Offers t f)
    (hentry : site.method t f.name = .ok entry) : entry = f := by
  have hfound : cx.method? t f.name = some f :=
    (hcx.method?_eq_some_iff ht).mpr ⟨hoffers, rfl⟩
  unfold Site.method at hentry
  rw [hm.members, hm.current] at hentry
  change cx.members.method? t f.name cx.current = some f at hfound
  rw [hfound] at hentry
  exact (Except.ok.inj hentry).symm

end Site

end Cool.Lowering
