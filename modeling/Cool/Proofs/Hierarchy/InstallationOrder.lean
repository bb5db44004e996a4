import Cool.Proofs.Hierarchy.Topological

/-! The classes of any program in topological order, whether its hierarchy is valid or has parents
that are undefined or run in a circle. -/

namespace Cool.Hierarchy

open Relation (TransGen)

variable {h : Hierarchy}

theorem VisitsAll.of_append {s s' : Visit} {cs ds : List Name} (hv : h.VisitsAll s (cs ++ ds) s') :
    ∃ t, h.VisitsAll s cs t ∧ h.VisitsAll t ds s' := by
  induction cs generalizing s with
  | nil => exact ⟨s, .nil, hv⟩
  | cons c cs ih =>
      cases hv with
      | cons hc hrest =>
          obtain ⟨t, hcs, hds⟩ := ih hrest
          exact ⟨t, .cons hc hcs, hds⟩

/-- Classes that are installed first, parents before children, come first and in that order. -/
theorem prefix_topological {cs : List Name} (hcs : cs <+: h.names) (hnodup : cs.Nodup)
    (hfirst : h.ParentsFirst cs) : cs <+: h.topological := by
  obtain ⟨rest, hnames⟩ := hcs
  have hall := h.visitsAll_topological
  rw [← hnames] at hall
  obtain ⟨t, hstart, hrest⟩ := hall.of_append
  obtain rfl := hstart.unique (visitsAll_of_parentsFirst [] hfirst hnodup)
  have horderly := (hstart.orderly (Visit.Orderly.empty h)
    (hnames ▸ List.subset_append_left _ _)).1
  have hprefix := (hrest.orderly horderly (hnames ▸ List.subset_append_right _ _)).2.1
  rwa [topological, ← hnames]

theorem parentsFirst_builtin (p : Program) :
    (build p).1.ParentsFirst (Builtin.classes.map (·.name)) := by
  intro before c after heq q hq
  cases before with
  | nil =>
      -- the first builtin class is the root
      obtain ⟨rfl, -⟩ := List.cons.inj heq
      have hroot : (build p).1.parent? .object = some q := hq
      rw [parent?_object] at hroot
      cases hroot
  | cons b before =>
      obtain ⟨rfl, -⟩ := List.cons.inj heq
      have hin : c ∈ Builtin.classes.map (·.name) := heq ▸ by simp
      have hne : c ≠ .object := by
        rintro rfl
        rw [parent?_object] at hq
        cases hq
      rw [parent?_builtin p (isBuiltin_iff.mpr (List.mem_map.mp hin)) hne] at hq
      cases hq
      exact List.mem_cons_self

theorem builtin_prefix_names (p : Program) :
    Builtin.classes.map (·.name) <+: (build p).1.names := by
  have hmap := (builtin_prefix_build p).map (·.name)
  rwa [List.map_map] at hmap

/-- Where no class occurs twice, a class stands before another if it is among those before it. -/
theorem idxOf_lt_of_mem_before {order : List Name} (hnodup : order.Nodup) {c q : Name}
    (hc : c ∈ order) (hq : ∀ before after, order = before ++ c :: after → q ∈ before) :
    order.idxOf q < order.idxOf c := by
  obtain ⟨before, after, rfl⟩ := List.append_of_mem hc
  have hin := hq before after rfl
  have hnot : c ∉ before := fun hcb =>
    (List.nodup_append.mp hnodup).2.2 _ hcb _ List.mem_cons_self rfl
  rw [List.idxOf_append_of_mem hin, List.idxOf_append_of_notMem hnot, List.idxOf_cons_self]
  exact List.idxOf_lt_length_of_mem hin

theorem idxOf_parent_lt (hn : h.names.Nodup) {c q : Name} (hc : c ∈ h.names)
    (hcycle : ¬ h.OnCycle c) (hq : h.parent? c = some q) (hmem : q ∈ h.names) :
    h.topological.idxOf q < h.topological.idxOf c := by
  have hperm := topological_perm hn
  refine idxOf_lt_of_mem_before (hperm.nodup_iff.mpr hn) (hperm.mem_iff.mpr hc) ?_
  intro before after heq
  exact h.topological_parentsFirstOffCycles before c after heq hcycle q hq hmem

/-- In a tree every class comes before all that inherit from it. -/
theorem idxOf_lt_of_inherits (hr : Rooted h) {c d : Name} (hd : d ∈ h.names)
    (hdc : h.Inherits d c) (hne : d ≠ c) : h.topological.idxOf c < h.topological.idxOf d := by
  induction hdc using Relation.ReflTransGen.head_induction_on with
  | refl => exact absurd rfl hne
  | @head d q hq hqc ih =>
      have hmem := hr.parent_mem hq
      have hlt := idxOf_parent_lt hr.names_nodup hd (not_onCycle hr d) hq hmem
      by_cases heq : q = c
      · rwa [heq] at hlt
      · exact Nat.lt_trans (ih hmem heq) hlt

/-- The topological order of the classes of a program. Visiting the classes ends for every program,
valid or not, and always with the same order: each installed class once, the builtin classes first
in the order of installation, and every class that lies on no cycle after its parent, if that is
installed. In a valid hierarchy every class therefore comes before all that inherit from it. -/
theorem topological_of_program (p : Program) :
    (∀ order, (build p).1.SortsTo order ↔ order = (build p).1.topological) ∧
    (build p).1.names.Nodup ∧
    (build p).1.topological.Perm (build p).1.names ∧
    Builtin.classes.map (·.name) <+: (build p).1.names ∧
    Builtin.classes.map (·.name) <+: (build p).1.topological ∧
    (∀ c ∈ (build p).1.names, ¬ (build p).1.OnCycle c →
      ∀ q, (build p).1.parent? c = some q → q ∈ (build p).1.names →
        (build p).1.topological.idxOf q < (build p).1.topological.idxOf c) ∧
    ((build p).1.valid = true → ∀ c d, d ∈ (build p).1.names → (build p).1.Inherits d c → d ≠ c →
      (build p).1.topological.idxOf c < (build p).1.topological.idxOf d) := by
  have hn := names_nodup_build p
  have hbuiltin := builtin_prefix_names p
  refine ⟨fun order => sortsTo_iff, hn, topological_perm hn, hbuiltin, ?_, ?_, ?_⟩
  · exact prefix_topological hbuiltin (by decide) (parentsFirst_builtin p)
  · intro c hc hcycle q hq hmem
    exact idxOf_parent_lt hn hc hcycle hq hmem
  · intro hv c d hd hdc hne
    exact idxOf_lt_of_inherits (rooted_of_valid hv) hd hdc hne

/-- A class below a circle of two, a class whose parent is undefined with one below it, and a class
that is its own parent. -/
def tangled : Program :=
  let span : Span := ⟨"knot.cl", 1⟩
  ⟨span, [⟨span, .named "C", .named "B", []⟩, ⟨span, .named "B", .named "A", []⟩,
    ⟨span, .named "A", .named "B", []⟩, ⟨span, .named "E", .named "D", []⟩,
    ⟨span, .named "D", .named "Missing", []⟩, ⟨span, .named "S", .named "S", []⟩]⟩

/-- A class that is no parent lies on no cycle. -/
theorem not_onCycle_of_childless {c : Name} (hc : ∀ d ∈ h.names, h.parent? d ≠ some c) :
    ¬ h.OnCycle c := by
  intro hcycle
  obtain ⟨d, -, hd⟩ := TransGen.tail'_iff.mp hcycle
  exact hc d (mem_names_of_parent? hd) hd

theorem topological_of_tangled :
    (build tangled).1.valid = false ∧ (build tangled).1.OnCycle (.named "A") ∧
      ¬ (build tangled).1.OnCycle (.named "C") ∧ ¬ (build tangled).1.OnCycle (.named "E") ∧
      (build tangled).1.SortsTo ([.object, .io, .int, .bool, .string] ++
        [Name.named "A", .named "B", .named "C", .named "D", .named "E", .named "S"]) ∧
      (build tangled).1.topological.idxOf (.named "B") <
        (build tangled).1.topological.idxOf (.named "C") ∧
      (build tangled).1.topological.idxOf (.named "D") <
        (build tangled).1.topological.idxOf (.named "E") ∧
      (build descending).1.valid = true ∧
      (build descending).1.topological.idxOf (.named "A") <
        (build descending).1.topological.idxOf (.named "C") := by
  obtain ⟨hsorts, -, -, -, -, hparent, -⟩ := topological_of_program tangled
  have hvalid : (build descending).1.valid = true := by decide
  have hlater := (topological_of_program descending).2.2.2.2.2.2 hvalid
  have hca : (build descending).1.Inherits (.named "C") (.named "A") :=
    .of_parent (p := .named "B") (by decide) (.of_parent (p := .named "A") (by decide) (.refl _))
  have hcycle : (build tangled).1.OnCycle (.named "A") :=
    TransGen.head (b := .named "B") (by decide) (.single (by decide))
  have hc : ¬ (build tangled).1.OnCycle (.named "C") := not_onCycle_of_childless (by decide)
  have he : ¬ (build tangled).1.OnCycle (.named "E") := not_onCycle_of_childless (by decide)
  refine ⟨by decide, hcycle, hc, he, (hsorts _).mpr (by decide), ?_, ?_, hvalid, ?_⟩
  · exact hparent _ (by decide) hc _ (by decide) (by decide)
  · exact hparent _ (by decide) he _ (by decide) (by decide)
  · exact hlater _ _ (by decide) hca (by decide)

end Cool.Hierarchy
