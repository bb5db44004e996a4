import Cool.Proofs.Hierarchy.Order

/-! Joins of all names. A name that is not installed is put below the root only, and the type of
ill-typed expressions below everything. The join of two names is then their least upper bound,
whatever they are, and the laws of joins follow from that. -/

namespace Cool.Hierarchy

variable {h : Hierarchy} {current : Name}

/-! ## Classes and other names -/

/-- Whether a name inherits from another, where everything lies under the root. -/
def Under (h : Hierarchy) (a b : Name) : Prop :=
  h.Inherits a b ∨ b = .object

theorem Under.refl (a : Name) : h.Under a a :=
  .inl (.refl a)

theorem Under.eq_object {b : Name} (hb : h.Under .object b) : b = .object := by
  rcases hb with hb | hb
  · exact (hb.eq_of_no_parent (parent?_object h)).symm
  · exact hb

theorem Under.trans {a b c : Name} (hab : h.Under a b) (hbc : h.Under b c) : h.Under a c := by
  rcases hab with hab | rfl
  · exact hbc.imp_left hab.trans
  · exact .inr hbc.eq_object

theorem Under.antisymm (hr : Rooted h) {a b : Name} (hab : h.Under a b) (hba : h.Under b a) :
    a = b := by
  rcases hab with hab | rfl
  · rcases hba with hba | rfl
    · exact hab.antisymm hr hba
    · exact hab.eq_of_no_parent (parent?_object h)
  · exact hba.eq_object

theorem under_iff_inherits (hr : Rooted h) {a b : Name} (ha : a ∈ h.names) :
    h.Under a b ↔ h.Inherits a b := by
  refine ⟨fun hab => ?_, .inl⟩
  rcases hab with hab | rfl
  · exact hab
  · exact inherits_object hr ha

/-- The join of two classes lies under exactly what both lie under. -/
theorem joinClasses_under_iff (hr : Rooted h) {a b u : Name} :
    h.Under (h.joinClasses a b) u ↔ h.Under a u ∧ h.Under b u := by
  constructor
  · intro hju
    rcases joinClasses_upper hr a b with hobject | ⟨ha, hb⟩
    · rw [hobject] at hju
      exact ⟨.inr hju.eq_object, .inr hju.eq_object⟩
    · exact ⟨Under.trans (.inl ha) hju, Under.trans (.inl hb) hju⟩
  · rintro ⟨hau | hu, hbu | hu⟩
    · exact .inl (joinClasses_least hr hau hbu)
    all_goals exact .inr hu

/-- A join is the root or an ancestor of its first operand, so it is a name outside the hierarchy
only if that operand is. -/
theorem joinClasses_ne (hr : Rooted h) {a b t : Name} (ht : t ∉ h.names) (ha : a ≠ t) :
    h.joinClasses a b ≠ t := by
  rintro rfl
  rcases joinClasses_upper hr a b with hobject | ⟨hinherits, -⟩
  · exact ht (hobject ▸ hr.object_mem)
  · rcases hinherits.cases_parent with heq | ⟨p, hp, -⟩
    · exact ha heq
    · exact ht (hinherits.mem_names hr (mem_names_of_parent? hp))

/-! ## Types -/

/-- The order of types inside a class. The type of an ill-typed expression comes before all others,
and the self type right before the class. -/
def Precedes (h : Hierarchy) (current a b : Name) : Prop :=
  a = .errType ∨ b ≠ .errType ∧
    if b = .selfType then a = .selfType else h.Under (if a = .selfType then current else a) b

theorem Precedes.refl (a : Name) : h.Precedes current a a := by
  by_cases ha : a = .errType
  · exact .inl ha
  · refine .inr ⟨ha, ?_⟩
    by_cases hs : a = .selfType
    · rwa [if_pos hs]
    · rw [if_neg hs, if_neg hs]
      exact .refl a

theorem Precedes.antisymm (hr : Rooted h) {a b : Name} (hab : h.Precedes current a b)
    (hba : h.Precedes current b a) : a = b := by
  rcases hab with rfl | ⟨hb, hab⟩
  · rcases hba with hb | ⟨ha, -⟩
    · exact hb.symm
    · exact absurd rfl ha
  · obtain ⟨ha, hba⟩ := hba.resolve_left hb
    by_cases has : a = .selfType
    · rw [if_pos has] at hba
      rw [has, hba]
    · by_cases hbs : b = .selfType
      · rw [if_pos hbs] at hab
        exact absurd hab has
      · rw [if_neg hbs, if_neg has] at hab
        rw [if_neg has, if_neg hbs] at hba
        exact hab.antisymm hr hba

/-- A type is determined by what it precedes. -/
theorem eq_of_precedes_iff (hr : Rooted h) (current : Name) {a b : Name}
    (hab : ∀ u, h.Precedes current a u ↔ h.Precedes current b u) : a = b :=
  ((hab b).mpr (.refl b)).antisymm hr ((hab a).mp (.refl a))

/-- Two types that are not both the self type precede what the classes they stand for lie under. -/
theorem precedes_of_joinClasses (hr : Rooted h) (herr : Name.errType ∉ h.names)
    (hcur : current ∈ h.names) {a b u c d : Name} (ha : a ≠ .errType) (hb : b ≠ .errType)
    (hself : ¬ (a = .selfType ∧ b = .selfType))
    (hc : c = if a = .selfType then current else a)
    (hd : d = if b = .selfType then current else b) :
    h.Precedes current (h.joinClasses c d) u ↔
      h.Precedes current a u ∧ h.Precedes current b u := by
  have hne : ∀ t, t ∉ h.names → a ≠ t ∨ t = .selfType → c ≠ t := by
    intro t ht hat
    rw [hc]
    split
    · exact fun heq => ht (heq ▸ hcur)
    · rename_i has
      rintro rfl
      exact hat.elim (fun hne => hne rfl) has
  have hjerr := joinClasses_ne hr (b := d) herr (hne _ herr (.inl ha))
  have hjself := joinClasses_ne hr (b := d) hr.selfType_not_mem
    (hne _ hr.selfType_not_mem (.inr rfl))
  simp only [Precedes, ha, hb, hjerr, hjself, false_or, if_false]
  by_cases hus : u = .selfType
  · simp only [hus, if_true]
    tauto
  · simp only [hus, if_false, joinClasses_under_iff hr, hc, hd]
    tauto

/-- The join of two types precedes exactly what both precede: it is their least upper bound. -/
theorem join_precedes_iff (hr : Rooted h) (herr : Name.errType ∉ h.names)
    (hcur : current ∈ h.names) {a b u : Name} :
    h.Precedes current (h.join a b current) u ↔
      h.Precedes current a u ∧ h.Precedes current b u := by
  by_cases ha : a = .errType
  · simp [join, ha, Precedes]
  by_cases hb : b = .errType
  · simp [join, ha, hb, Precedes]
  rw [join, if_neg ha, if_neg hb]
  by_cases has : a = .selfType
  · rw [if_pos has]
    by_cases hbs : b = .selfType
    · rw [if_pos hbs, has, hbs, and_self]
    · rw [if_neg hbs]
      exact precedes_of_joinClasses hr herr hcur ha hb (fun hs => hbs hs.2) (by rw [if_pos has])
        (by rw [if_neg hbs])
  · rw [if_neg has]
    by_cases hbs : b = .selfType
    · rw [if_pos hbs, and_comm]
      exact precedes_of_joinClasses hr herr hcur hb ha (fun hs => has hs.2) (by rw [if_pos hbs])
        (by rw [if_neg has])
    · rw [if_neg hbs]
      exact precedes_of_joinClasses hr herr hcur ha hb (fun hs => has hs.1) (by rw [if_neg has])
        (by rw [if_neg hbs])

/-- The class that a proper type stands for. -/
theorem IsType.class_mem {a : Name} (ha : h.IsType a) (hcur : current ∈ h.names) :
    (if a = .selfType then current else a) ∈ h.names := by
  by_cases has : a = .selfType
  · rwa [if_pos has]
  · rw [if_neg has]
    exact ha.resolve_left has

theorem Precedes.isType (hr : Rooted h) (herr : Name.errType ∉ h.names) (hcur : current ∈ h.names)
    {a u : Name} (hau : h.Precedes current a u) (ha : h.IsType a) : h.IsType u := by
  obtain ⟨-, hau⟩ := hau.resolve_left (ha.ne_errType herr)
  by_cases hus : u = .selfType
  · exact .inl hus
  · rw [if_neg hus, under_iff_inherits hr (ha.class_mem hcur)] at hau
    exact .inr (hau.mem_names hr (ha.class_mem hcur))

/-- Conformance of a proper type is its place in the order, except that everything conforms to the
type of ill-typed expressions. -/
theorem conforms_iff_precedes (hr : Rooted h) (herr : Name.errType ∉ h.names)
    (hcur : current ∈ h.names) {a u : Name} (ha : h.IsType a) :
    h.conforms a u current = true ↔ u = .errType ∨ h.Precedes current a u := by
  have hne := ha.ne_errType herr
  by_cases hu : u = .errType
  · simp [conforms, hu]
  by_cases hus : u = .selfType
  · rw [hus] at hu
    simp [conforms, Precedes, hne, hu, hus]
  simp only [conforms, Precedes, hne, hu, hus, false_or, or_self, if_false, ne_eq, not_false_eq_true,
    true_and]
  rw [under_iff_inherits hr (ha.class_mem hcur), ← isBelow_iff hr, apply_ite (h.isBelow · u)]

/-! ## The laws of joins -/

section

variable (hr : Rooted h) (herr : Name.errType ∉ h.names) (hcur : current ∈ h.names)

include hr herr hcur

theorem join_comm (a b : Name) : h.join a b current = h.join b a current :=
  eq_of_precedes_iff hr current fun u => by
    rw [join_precedes_iff hr herr hcur, join_precedes_iff hr herr hcur, and_comm]

theorem join_assoc (a b c : Name) :
    h.join (h.join a b current) c current = h.join a (h.join b c current) current :=
  eq_of_precedes_iff hr current fun u => by
    simp only [join_precedes_iff hr herr hcur, and_assoc]

theorem precedes_join (a b : Name) :
    h.Precedes current a (h.join a b current) ∧ h.Precedes current b (h.join a b current) :=
  (join_precedes_iff hr herr hcur).mp (.refl _)

theorem join_self (a : Name) : h.join a a current = a :=
  eq_of_precedes_iff hr current fun u => by
    rw [join_precedes_iff hr herr hcur, and_self]

end

end Cool.Hierarchy
