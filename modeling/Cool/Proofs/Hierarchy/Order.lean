import Cool.Proofs.Hierarchy.Validity
import Mathlib.Logic.Relation

/-! The order of a hierarchy. Conformance is decided by bounded walks; in a tree the bounds never cut
a walk short, so it is the order that inheritance generates, and the join of two types is their
least upper bound in it. -/

namespace Cool.Hierarchy

/-- A class inherits from itself and from what its parent inherits from. -/
def Inherits (h : Hierarchy) : Name → Name → Prop :=
  Relation.ReflTransGen fun c p => h.parent? c = some p

variable {h : Hierarchy}

namespace Inherits

theorem refl (c : Name) : h.Inherits c c :=
  Relation.ReflTransGen.refl

theorem trans {a b c : Name} (hab : h.Inherits a b) (hbc : h.Inherits b c) : h.Inherits a c :=
  Relation.ReflTransGen.trans hab hbc

theorem of_parent {c p d : Name} (hp : h.parent? c = some p) (hd : h.Inherits p d) :
    h.Inherits c d :=
  Relation.ReflTransGen.head hp hd

/-- A class that is not the ancestor itself inherits through its parent. -/
theorem cases_parent {c d : Name} (hcd : h.Inherits c d) :
    c = d ∨ ∃ p, h.parent? c = some p ∧ h.Inherits p d :=
  Relation.ReflTransGen.cases_head hcd

theorem eq_of_no_parent {c d : Name} (hcd : h.Inherits c d) (hp : h.parent? c = none) :
    c = d := by
  rcases hcd.cases_parent with heq | ⟨p, hsome, -⟩
  · exact heq
  · rw [hp] at hsome
    cases hsome

theorem mem_names {c d : Name} (hr : Rooted h) (hcd : h.Inherits c d) (hc : c ∈ h.names) :
    d ∈ h.names := by
  induction hcd with
  | refl => exact hc
  | tail _ hp _ => exact hr.parent_mem hp

/-- Parents are unique, so two ancestors of a class lie on one chain. -/
theorem total {a b c : Name} (hab : h.Inherits a b) (hac : h.Inherits a c) :
    h.Inherits b c ∨ h.Inherits c b :=
  Relation.ReflTransGen.total_of_right_unique
    (fun _ _ _ hx hy => Option.some.inj (hx.symm.trans hy)) hab hac

end Inherits

/-! ## Depth -/

theorem depth_parent (hr : Rooted h) {c p : Name} (hp : h.parent? c = some p) :
    h.depth c = h.depth p + 1 := by
  have hstep : h.depth c = h.depthWithin h.size p + 1 := by simp only [depth, depthWithin, hp]
  have hle := hr.depth_le c
  rw [hstep] at hle ⊢
  rw [depth, depthWithin_eq_of_lt h (Nat.lt_of_succ_le hle) (Nat.le_succ _)]

theorem Inherits.depth_le (hr : Rooted h) {c d : Name} (hcd : h.Inherits c d) :
    h.depth d ≤ h.depth c := by
  induction hcd with
  | refl => exact Nat.le_refl _
  | tail _ hp ih =>
      rw [depth_parent hr hp] at ih
      omega

theorem Inherits.antisymm (hr : Rooted h) {c d : Name} (hcd : h.Inherits c d)
    (hdc : h.Inherits d c) : c = d := by
  rcases hcd.cases_parent with heq | ⟨p, hp, hpd⟩
  · exact heq
  · have hdepth := depth_parent hr hp
    have hpd := hpd.depth_le hr
    have hdc := hdc.depth_le hr
    omega

theorem not_inherits_of_parent (hr : Rooted h) {c p : Name} (hp : h.parent? c = some p) :
    ¬ h.Inherits p c := by
  intro hpc
  have hdepth := depth_parent hr hp
  have hle := hpc.depth_le hr
  omega

/-- Induction from the parent of a class to the class. -/
theorem Rooted.parent_induction (hr : Rooted h) {P : Name → Prop}
    (hstep : ∀ c ∈ h.names, (∀ p, h.parent? c = some p → P p) → P c) {c : Name}
    (hc : c ∈ h.names) : P c := by
  induction hd : h.depth c using Nat.strongRecOn generalizing c with
  | ind n ih =>
      refine hstep c hc fun p hp => ?_
      have hdepth := depth_parent hr hp
      exact ih (h.depth p) (by omega) (hr.parent_mem hp) rfl

/-- Every class inherits from the root. -/
theorem inherits_object (hr : Rooted h) {c : Name} (hc : c ∈ h.names) :
    h.Inherits c .object := by
  refine hr.parent_induction (P := fun c => h.Inherits c .object) (fun c hc ih => ?_) hc
  by_cases hobject : c = .object
  · rw [hobject]
    exact .refl _
  · obtain ⟨p, hp⟩ := exists_parent? hc hobject
    exact .of_parent hp (ih p hp)

/-! ## Conformance of classes -/

theorem reachesWithin_iff {fuel : Nat} {c d : Name} (hlt : h.depthWithin fuel c < fuel) :
    h.reachesWithin fuel c d = true ↔ h.Inherits c d := by
  induction fuel generalizing c with
  | zero => exact absurd hlt (Nat.not_lt_zero _)
  | succ fuel ih =>
      by_cases heq : c = d
      · subst heq
        simp [reachesWithin, Inherits.refl]
      · cases hp : h.parent? c with
        | none =>
            simp only [reachesWithin, if_neg heq, hp, Bool.false_eq_true, false_iff]
            exact fun hcd => heq (hcd.eq_of_no_parent hp)
        | some p =>
            simp only [depthWithin, hp] at hlt
            simp only [reachesWithin, if_neg heq, hp]
            rw [ih (Nat.lt_of_succ_lt_succ hlt)]
            constructor
            · exact .of_parent hp
            · intro hcd
              rcases hcd.cases_parent with heq' | ⟨q, hq, hqd⟩
              · exact absurd heq' heq
              · rwa [Option.some.inj (hp.symm.trans hq)]

/-- The bound of the walk never cuts a chain of parents short. -/
theorem isBelow_iff (hr : Rooted h) {c d : Name} : h.isBelow c d = true ↔ h.Inherits c d :=
  reachesWithin_iff (Nat.lt_succ_of_le (hr.depth_le c))

/-- What the walk for a join finds: the root, or an ancestor of both. -/
theorem joinWithin_upper (hr : Rooted h) {a b : Name} {fuel : Nat} :
    h.joinWithin a fuel b = .object ∨
      h.Inherits a (h.joinWithin a fuel b) ∧ h.Inherits b (h.joinWithin a fuel b) := by
  induction fuel generalizing b with
  | zero => exact .inl rfl
  | succ fuel ih =>
      by_cases hab : h.isBelow a b = true
      · simp only [joinWithin, if_pos hab]
        exact .inr ⟨(isBelow_iff hr).mp hab, .refl b⟩
      · cases hp : h.parent? b with
        | none => simp [joinWithin, hab, hp]
        | some p =>
            simp only [joinWithin, if_neg hab, hp]
            exact ih.imp_right fun hboth => ⟨hboth.1, .of_parent hp hboth.2⟩

/-- What the walk for a join finds is below every ancestor of both. -/
theorem joinWithin_least (hr : Rooted h) {a b : Name} {fuel : Nat}
    (hlt : h.depthWithin fuel b < fuel) {u : Name} (hau : h.Inherits a u) (hbu : h.Inherits b u) :
    h.Inherits (h.joinWithin a fuel b) u := by
  induction fuel generalizing b with
  | zero => exact absurd hlt (Nat.not_lt_zero _)
  | succ fuel ih =>
      by_cases hab : h.isBelow a b = true
      · simpa only [joinWithin, if_pos hab] using hbu
      · have hne : b ≠ u := by
          rintro rfl
          exact hab ((isBelow_iff hr).mpr hau)
        obtain ⟨p, hp, hpu⟩ := hbu.cases_parent.resolve_left hne
        simp only [depthWithin, hp] at hlt
        simp only [joinWithin, if_neg hab, hp]
        exact ih (Nat.lt_of_succ_lt_succ hlt) hpu

theorem joinClasses_upper (hr : Rooted h) (a b : Name) :
    h.joinClasses a b = .object ∨
      h.Inherits a (h.joinClasses a b) ∧ h.Inherits b (h.joinClasses a b) :=
  joinWithin_upper hr

theorem joinClasses_least (hr : Rooted h) {a b u : Name} (hau : h.Inherits a u)
    (hbu : h.Inherits b u) : h.Inherits (h.joinClasses a b) u :=
  joinWithin_least hr (Nat.lt_succ_of_le (hr.depth_le b)) hau hbu

theorem joinClasses_spec (hr : Rooted h) {a b : Name} (ha : a ∈ h.names) (hb : b ∈ h.names) :
    h.Inherits a (h.joinClasses a b) ∧ h.Inherits b (h.joinClasses a b) ∧
      ∀ u, h.Inherits a u → h.Inherits b u → h.Inherits (h.joinClasses a b) u := by
  have hleast := fun u hau hbu => joinClasses_least hr (a := a) (b := b) (u := u) hau hbu
  rcases joinClasses_upper hr a b with hobject | ⟨hau, hbu⟩
  · rw [hobject] at hleast ⊢
    exact ⟨inherits_object hr ha, inherits_object hr hb, hleast⟩
  · exact ⟨hau, hbu, hleast⟩

/-! ## Conformance of types -/

/-- The types of expressions: the installed classes and the self type. -/
def IsType (h : Hierarchy) (t : Name) : Prop :=
  t = .selfType ∨ t ∈ h.names

/-- Conformance inside a class. The self type stands for an unknown heir of the class, so it
conforms to itself and to the ancestors of the class, and no class conforms to it. -/
inductive Conforms (h : Hierarchy) (current : Name) : Name → Name → Prop where
  | self : Conforms h current .selfType .selfType
  | ofSelf {d : Name} : h.Inherits current d → Conforms h current .selfType d
  | ofClass {c d : Name} : c ∈ h.names → h.Inherits c d → Conforms h current c d

/-- The least type that all types of a list conform to. -/
structure IsJoin (h : Hierarchy) (current : Name) (ts : List Name) (t : Name) : Prop where
  upper : ∀ u ∈ ts, h.Conforms current u t
  least : ∀ v, (∀ u ∈ ts, h.Conforms current u v) → h.Conforms current t v

variable {current : Name}

theorem Conforms.isType_left {t u : Name} (htu : h.Conforms current t u) : h.IsType t := by
  cases htu with
  | self => exact Or.inl rfl
  | ofSelf _ => exact Or.inl rfl
  | ofClass hc _ => exact Or.inr hc

theorem Conforms.isType_right (hr : Rooted h) (hcur : current ∈ h.names) {t u : Name}
    (htu : h.Conforms current t u) : h.IsType u := by
  cases htu with
  | self => exact Or.inl rfl
  | ofSelf hd => exact Or.inr (hd.mem_names hr hcur)
  | ofClass hc hd => exact Or.inr (hd.mem_names hr hc)

theorem Conforms.refl {t : Name} (ht : h.IsType t) : h.Conforms current t t := by
  rcases ht with rfl | hmem
  · exact .self
  · exact .ofClass hmem (.refl t)

/-- Nothing but the self type conforms to it. -/
theorem Conforms.eq_selfType (hr : Rooted h) {t : Name}
    (ht : h.Conforms current t .selfType) : t = .selfType := by
  cases ht with
  | self => rfl
  | ofSelf hd => rfl
  | ofClass hc hd => exact absurd (hd.mem_names hr hc) hr.selfType_not_mem

theorem Conforms.antisymm (hr : Rooted h) {t u : Name}
    (htu : h.Conforms current t u) (hut : h.Conforms current u t) : t = u := by
  cases htu with
  | self => rfl
  | ofSelf hd => exact (hut.eq_selfType hr).symm
  | ofClass hc hd =>
      cases hut with
      | self => rfl
      | ofSelf _ => exact absurd (hd.mem_names hr hc) hr.selfType_not_mem
      | ofClass hc' hd' => exact hd.antisymm hr hd'

theorem Conforms.trans (hr : Rooted h) {t u v : Name}
    (htu : h.Conforms current t u) (huv : h.Conforms current u v) : h.Conforms current t v := by
  cases htu with
  | self => exact huv
  | ofSelf hd =>
      cases huv with
      | self => exact .self
      | ofSelf hd' => exact .ofSelf hd'
      | ofClass _ hd' => exact .ofSelf (hd.trans hd')
  | ofClass hc hd =>
      cases huv with
      | self => exact absurd (hd.mem_names hr hc) hr.selfType_not_mem
      | ofSelf _ => exact absurd (hd.mem_names hr hc) hr.selfType_not_mem
      | ofClass _ hd' => exact .ofClass hc (hd.trans hd')

theorem IsJoin.singleton {t : Name} (ht : h.IsType t) : h.IsJoin current [t] t := by
  refine ⟨fun u hu => ?_, fun v hv => hv t List.mem_cons_self⟩
  rw [List.mem_singleton.mp hu]
  exact .refl ht

/-- Joins can be taken one type after the other. -/
theorem IsJoin.append_singleton (hr : Rooted h) {ts : List Name} {t u j : Name}
    (ht : h.IsJoin current ts t) (hj : h.IsJoin current [t, u] j) :
    h.IsJoin current (ts ++ [u]) j := by
  refine ⟨fun v hv => ?_, fun v hv => hj.least v fun w hw => ?_⟩
  · rcases List.mem_append.mp hv with hv | hv
    · exact (ht.upper v hv).trans hr (hj.upper t List.mem_cons_self)
    · exact hj.upper v (List.mem_cons_of_mem _ hv)
  · rcases List.mem_cons.mp hw with rfl | hw
    · exact ht.least v fun x hx => hv x (List.mem_append_left _ hx)
    · exact hv w (List.mem_append_right _ hw)

/-- A list of types has at most one join. -/
theorem IsJoin.unique (hr : Rooted h) {ts : List Name} {t u : Name}
    (ht : h.IsJoin current ts t) (hu : h.IsJoin current ts u) : t = u :=
  (ht.least u hu.upper).antisymm hr (hu.least t ht.upper)

theorem IsType.ne_errType (herr : Name.errType ∉ h.names) {t : Name} (ht : h.IsType t) :
    t ≠ .errType := by
  rcases ht with rfl | hmem
  · decide
  · exact fun heq => herr (heq ▸ hmem)

/-- The decision procedure for conformance agrees with the order on the types of expressions. -/
theorem conforms_iff (hr : Rooted h) (herr : Name.errType ∉ h.names) {t u : Name}
    (ht : h.IsType t) (hu : h.IsType u) :
    h.conforms t u current = true ↔ h.Conforms current t u := by
  have hproper : ¬ (t = .errType ∨ u = .errType) :=
    not_or.mpr ⟨ht.ne_errType herr, hu.ne_errType herr⟩
  unfold conforms
  rw [if_neg hproper]
  by_cases hself : u = .selfType
  · subst hself
    rw [if_pos rfl, decide_eq_true_iff]
    constructor
    · rintro rfl
      exact .self
    · exact fun hc => hc.eq_selfType hr
  · rw [if_neg hself]
    by_cases hchild : t = .selfType
    · subst hchild
      rw [if_pos rfl, isBelow_iff hr]
      refine ⟨.ofSelf, ?_⟩
      intro hc
      cases hc with
      | self => exact absurd rfl hself
      | ofSelf hd => exact hd
      | ofClass hc _ => exact absurd hc hr.selfType_not_mem
    · rw [if_neg hchild, isBelow_iff hr]
      have hmem : t ∈ h.names := ht.resolve_left hchild
      refine ⟨.ofClass hmem, ?_⟩
      intro hc
      cases hc with
      | self => exact absurd rfl hchild
      | ofSelf _ => exact absurd rfl hchild
      | ofClass _ hd => exact hd

/-- Conforming to a class means inheriting from it, where the current class stands for the self
type. -/
theorem conforms_class_iff (hr : Rooted h) {t u : Name} (ht : h.IsType t) (hu : u ∈ h.names) :
    h.Conforms current t u ↔ h.Inherits (if t = .selfType then current else t) u := by
  have hself : u ≠ .selfType := fun heq => hr.selfType_not_mem (heq ▸ hu)
  constructor
  · intro hc
    cases hc with
    | self => exact absurd rfl hself
    | ofSelf hd => rwa [if_pos rfl]
    | ofClass hc hd =>
        have hclass : t ≠ .selfType := fun heq => hr.selfType_not_mem (heq ▸ hc)
        rwa [if_neg hclass]
  · intro hd
    by_cases hs : t = .selfType
    · subst hs
      rw [if_pos rfl] at hd
      exact .ofSelf hd
    · rw [if_neg hs] at hd
      exact .ofClass (ht.resolve_left hs) hd

/-! ## Joins -/

/-- The least common ancestor of the classes two types stand for is the join of the types, unless
both are the self type. -/
theorem isJoin_of_inherits (hr : Rooted h) (hcur : current ∈ h.names) {t u j : Name}
    (ht : h.IsType t) (hu : h.IsType u) (hboth : ¬ (t = .selfType ∧ u = .selfType))
    (htj : h.Inherits (if t = .selfType then current else t) j)
    (huj : h.Inherits (if u = .selfType then current else u) j)
    (hleast : ∀ v, h.Inherits (if t = .selfType then current else t) v →
      h.Inherits (if u = .selfType then current else u) v → h.Inherits j v) :
    h.IsJoin current [t, u] j := by
  have hmem : ∀ {v : Name}, h.IsType v → (if v = .selfType then current else v) ∈ h.names := by
    intro v hv
    by_cases hs : v = .selfType
    · rwa [if_pos hs]
    · rw [if_neg hs]
      exact hv.resolve_left hs
  have hj : j ∈ h.names := htj.mem_names hr (hmem ht)
  refine ⟨?_, ?_⟩
  · intro v hv
    rcases List.mem_pair.mp hv with rfl | rfl
    · exact (conforms_class_iff hr ht hj).mpr htj
    · exact (conforms_class_iff hr hu hj).mpr huj
  · intro v hv
    have htv := hv t (by simp)
    have huv := hv u (by simp)
    -- an upper bound is a class, since one of the two types is
    have hclass : v ∈ h.names := by
      refine (htv.isType_right hr hcur).resolve_left ?_
      rintro rfl
      exact hboth ⟨htv.eq_selfType hr, huv.eq_selfType hr⟩
    exact .ofClass hj (hleast v ((conforms_class_iff hr ht hclass).mp htv)
      ((conforms_class_iff hr hu hclass).mp huv))

/-- The join of two types is their least upper bound. -/
theorem join_isJoin (hr : Rooted h) (herr : Name.errType ∉ h.names) (hcur : current ∈ h.names)
    {t u : Name} (ht : h.IsType t) (hu : h.IsType u) :
    h.IsJoin current [t, u] (h.join t u current) := by
  unfold join
  rw [if_neg (ht.ne_errType herr), if_neg (hu.ne_errType herr)]
  by_cases hts : t = .selfType
  · rw [if_pos hts]
    by_cases hus : u = .selfType
    · subst hts hus
      rw [if_pos rfl]
      exact ⟨by simpa using .self, fun v hv => hv _ (by simp)⟩
    · obtain ⟨hcj, huj, hleast⟩ := joinClasses_spec hr hcur (hu.resolve_left hus)
      rw [if_neg hus]
      refine isJoin_of_inherits hr hcur ht hu (fun hb => hus hb.2) ?_ ?_ ?_
      · rwa [if_pos hts]
      · rwa [if_neg hus]
      · rw [if_pos hts, if_neg hus]
        exact hleast
  · rw [if_neg hts]
    by_cases hus : u = .selfType
    · obtain ⟨hcj, htj, hleast⟩ := joinClasses_spec hr hcur (ht.resolve_left hts)
      rw [if_pos hus]
      refine isJoin_of_inherits hr hcur ht hu (fun hb => hts hb.1) ?_ ?_ ?_
      · rwa [if_neg hts]
      · rwa [if_pos hus]
      · rw [if_neg hts, if_pos hus]
        exact fun v htv hcv => hleast v hcv htv
    · obtain ⟨htj, huj, hleast⟩ :=
        joinClasses_spec hr (ht.resolve_left hts) (hu.resolve_left hus)
      rw [if_neg hus]
      refine isJoin_of_inherits hr hcur ht hu (fun hb => hts hb.1) ?_ ?_ ?_
      · rwa [if_neg hts]
      · rwa [if_neg hus]
      · rw [if_neg hts, if_neg hus]
        exact hleast

/-! ## The order of types -/

section

variable (hr : Rooted h) (herr : Name.errType ∉ h.names)

include hr herr

/-- Classes conform as they inherit. -/
theorem conforms_classes_iff {a b : Name} (ha : a ∈ h.names) (hb : b ∈ h.names) :
    h.conforms a b current = true ↔ h.Inherits a b := by
  rw [conforms_iff hr herr (.inr ha) (.inr hb), conforms_class_iff hr (.inr ha) hb, if_neg]
  exact fun heq => hr.selfType_not_mem (heq ▸ ha)

omit herr in
theorem conforms_of_selfType_iff {b : Name} (hb : b ≠ .errType) :
    h.conforms .selfType b current = true ↔ b = .selfType ∨ h.Inherits current b := by
  have hproper : ¬ (Name.selfType = .errType ∨ b = .errType) := by simp [hb]; decide
  unfold conforms
  rw [if_neg hproper]
  by_cases hself : b = .selfType
  · simp [hself]
  · rw [if_neg hself, if_pos rfl, isBelow_iff hr]
    simp [hself]

omit hr herr in
theorem conforms_to_selfType_iff {a : Name} (ha : a ≠ .errType) :
    h.conforms a .selfType current = true ↔ a = .selfType := by
  have hproper : ¬ (a = .errType ∨ Name.selfType = .errType) := by simp [ha]; decide
  unfold conforms
  rw [if_neg hproper, if_pos rfl, decide_eq_true_iff]

end

/-- Inside a class of a valid hierarchy, conformance is the order that inheritance generates. Classes
conform to what a chain of parents leads to, of any length. On the classes and the self type it is a
partial order with the root on top, in which the self type lies right below the class. -/
theorem conformance_is_partial_order {p : Program} (hvalid : (build p).1.valid = true)
    (herr : Name.errType ∉ (build p).1.names) (hcur : current ∈ (build p).1.names) :
    let h := (build p).1
    (∀ a ∈ h.names, ∀ b ∈ h.names, (h.conforms a b current = true ↔ h.Inherits a b)) ∧
    (∀ a, h.IsType a → h.conforms a a current = true) ∧
    (∀ a b c, h.IsType a → h.IsType b → h.IsType c → h.conforms a b current = true →
      h.conforms b c current = true → h.conforms a c current = true) ∧
    (∀ a b, h.IsType a → h.IsType b → h.conforms a b current = true →
      h.conforms b a current = true → a = b) ∧
    (h.IsType .object ∧ ∀ a, h.IsType a → h.conforms a .object current = true) ∧
    (∀ b, h.IsType b →
      (h.conforms .selfType b current = true ↔ b = .selfType ∨ h.Inherits current b)) ∧
    ∀ a, h.IsType a → h.conforms a .selfType current = true → a = .selfType := by
  intro h
  have hr : h.Rooted := rooted_of_valid hvalid
  have hobject : h.IsType .object := .inr hr.object_mem
  refine ⟨fun a ha b hb => conforms_classes_iff hr herr ha hb, fun a ha => ?_, ?_, ?_,
    ⟨hobject, fun a ha => ?_⟩, fun b hb => conforms_of_selfType_iff hr (hb.ne_errType herr),
    fun a ha => (conforms_to_selfType_iff (ha.ne_errType herr)).mp⟩
  · exact (conforms_iff hr herr ha ha).mpr (.refl ha)
  · intro a b c ha hb hc hab hbc
    rw [conforms_iff hr herr ha hb] at hab
    rw [conforms_iff hr herr hb hc] at hbc
    exact (conforms_iff hr herr ha hc).mpr (hab.trans hr hbc)
  · intro a b ha hb hab hba
    rw [conforms_iff hr herr ha hb] at hab
    rw [conforms_iff hr herr hb ha] at hba
    exact hab.antisymm hr hba
  · refine (conforms_iff hr herr ha hobject).mpr ?_
    rcases ha with rfl | ha
    · exact .ofSelf (inherits_object hr hcur)
    · exact .ofClass ha (inherits_object hr ha)

/-- The tree of `class C inherits B {}; class B inherits A {}; class A {};`. -/
def descending : Program :=
  let span : Span := ⟨"chain.cl", 1⟩
  ⟨span, [⟨span, .named "C", .named "B", []⟩, ⟨span, .named "B", .named "A", []⟩,
    ⟨span, .named "A", .anonymous, []⟩]⟩

/-- Inside `B`, the self type and `C` conform to `A`, and `A` to neither. -/
theorem conformance_in_descending :
    let h := (build descending).1
    let b : Name := .named "B"
    h.valid = true ∧ Name.errType ∉ h.names ∧ b ∈ h.names ∧
      h.conforms (.named "C") (.named "A") b = true ∧ h.conforms .selfType (.named "A") b = true ∧
      h.conforms (.named "A") (.named "C") b = false ∧
      h.conforms (.named "A") .selfType b = false := by
  intro h b
  have hvalid : h.valid = true := by decide
  have herr : Name.errType ∉ h.names := by decide
  have hcur : b ∈ h.names := by decide
  obtain ⟨hclasses, -, -, hantisymm, -, hself, htoSelf⟩ :=
    conformance_is_partial_order (p := descending) hvalid herr hcur
  have hba : h.Inherits b (.named "A") := .of_parent (p := .named "A") (by decide) (.refl _)
  have hca : h.conforms (.named "C") (.named "A") b = true :=
    (hclasses _ (by decide) _ (by decide)).mpr (.of_parent (p := b) (by decide) hba)
  refine ⟨hvalid, herr, hcur, hca, (hself _ (.inr (by decide))).mpr (.inr hba),
    Bool.eq_false_iff.mpr fun hac => ?_, Bool.eq_false_iff.mpr fun hto => ?_⟩
  · exact absurd (hantisymm _ _ (.inr (by decide)) (.inr (by decide)) hac hca) (by decide)
  · exact absurd (htoSelf _ (.inr (by decide)) hto) (by decide)

end Cool.Hierarchy
