import Cool.Proofs.Hierarchy.Rearrangement

/-! Which programs have a valid hierarchy, and which classes are reported where their parents run
in a circle. -/

namespace Cool.Hierarchy

open Relation (ReflTransGen TransGen)

/-- The parent of a class as declared: the root where none is named. -/
def declaredParent (c : ClassDecl) : Name :=
  if c.parent = .anonymous then .object else c.parent

/-- The classes a program starts from and those it declares, in the order of installation. -/
def allClasses (p : Program) : List ClassDecl :=
  Builtin.classes ++ p.classes

/-- Whether a class of the program is declared with the given parent. The root has none. -/
def ParentOf (p : Program) (c q : Name) : Prop :=
  c ≠ .object ∧ ∃ d ∈ allClasses p, d.name = c ∧ declaredParent d = q

/-- Whether following parents from a class leads to another. -/
def Reaches (p : Program) : Name → Name → Prop :=
  ReflTransGen (ParentOf p)

/-- The rules for the classes of a program, apart from where following parents leads. -/
structure WellDeclared (p : Program) : Prop where
  names_nodup : (p.classes.map (·.name)).Nodup
  names_free : ∀ c ∈ p.classes, c.name.isBuiltin = false ∧ c.name ≠ .selfType
  parents : ∀ c ∈ p.classes,
    ((declaredParent c).isBuiltin = true ∨ declaredParent c ∈ p.classes.map (·.name)) ∧
      declaredParent c ∉ [Name.int, .bool, .string]

/-- A walk along a relation that remembers the places it left. It ends where there is no next place,
or at the first place met twice. -/
inductive Walk (R : Name → Name → Prop) : List Name → Name → Option Name → Prop where
  | done {met c} : (∀ q, ¬ R c q) → Walk R met c none
  | closed {met c q} : R c q → q ∈ c :: met → Walk R met c (some q)
  | step {met c q stop} : R c q → q ∉ c :: met → Walk R (c :: met) q stop → Walk R met c stop

/-! ## Walks -/

namespace Walk

variable {R : Name → Name → Prop} {met : List Name} {c q : Name}

/-- A walk that ends properly ends where there is no next place. -/
theorem exists_end {stop : Option Name} (h : Walk R met c stop) (hstop : stop = none) :
    ∃ q, ReflTransGen R c q ∧ ∀ r, ¬ R q r := by
  induction h with
  | done hnone => exact ⟨_, .refl, hnone⟩
  | closed => cases hstop
  | step hr _ _ ih =>
      obtain ⟨q, hq, hnone⟩ := ih hstop
      exact ⟨q, .head hr hq, hnone⟩

/-- A place met twice is on a cycle. The places left so far lead to the current one, so the step
that returns to one of them closes a circle. -/
theorem on_cycle {stop : Option Name} (h : Walk R met c stop) (hstop : stop = some q)
    (hmet : ∀ a ∈ met, TransGen R a c) : ReflTransGen R c q ∧ TransGen R q q := by
  induction h with
  | done => cases hstop
  | closed hr hmem =>
      cases hstop
      refine ⟨.single hr, ?_⟩
      rcases List.mem_cons.mp hmem with rfl | hmem
      · exact .single hr
      · exact (hmet _ hmem).tail hr
  | step hr _ _ ih =>
      obtain ⟨hreach, hcycle⟩ := ih hstop
        (List.forall_mem_cons.mpr ⟨.single hr, fun a ha => (hmet a ha).tail hr⟩)
      exact ⟨.head hr hreach, hcycle⟩

end Walk

/-- A place from which one where the walk ends is reached is on no cycle. -/
theorem not_on_cycle_of_end {R : Name → Name → Prop} (hunique : ∀ a b c, R a b → R a c → b = c)
    {c o : Name} (hreach : ReflTransGen R c o) (hend : ∀ q, ¬ R o q) : ¬ TransGen R c c := by
  induction hreach using ReflTransGen.head_induction_on with
  | refl =>
      intro hcycle
      obtain ⟨q, hq, -⟩ := TransGen.head'_iff.mp hcycle
      exact hend q hq
  | head hstep _ ih =>
      intro hcycle
      obtain ⟨q, hq, hback⟩ := TransGen.head'_iff.mp hcycle
      obtain rfl := hunique _ _ _ hstep hq
      exact ih (.tail' hback hstep)

/-- A place that leads into a cycle does not lead to one where the walk ends. -/
theorem not_reaches_end_of_cycle {R : Name → Name → Prop}
    (hunique : ∀ a b c, R a b → R a c → b = c) {c o q : Name} (hcycle : TransGen R q q)
    (hreach : ReflTransGen R c q) (hend : ∀ r, ¬ R o r) : ¬ ReflTransGen R c o := by
  intro hco
  rcases ReflTransGen.total_of_right_unique hunique hreach hco with hqo | hoq
  · exact not_on_cycle_of_end hunique hqo hend hcycle
  · rcases hoq.cases_head with rfl | ⟨r, hr, -⟩
    · exact not_on_cycle_of_end hunique .refl hend hcycle
    · exact hend r hr

/-! ## The bounded search for a cycle -/

/-- Where all parents are installed, the search is never cut short: it makes the walk. -/
theorem walk_cycleWithin {h : Hierarchy}
    (hparent : ∀ {c q : Name}, h.parent? c = some q → q ∈ h.names) {fuel : Nat}
    {met : List Name} {c : Name} (hnodup : (c :: met).Nodup) (hmem : c :: met ⊆ h.names)
    (hfuel : h.size + 1 ≤ met.length + fuel) :
    Walk (fun c q => h.parent? c = some q) met c (h.cycleWithin fuel met c) := by
  induction fuel generalizing met c with
  | zero =>
      -- the places met are distinct classes, and there are more of them than classes
      have hlen := (hnodup.subperm hmem).length_le
      simp only [List.length_cons, names, List.length_map] at hlen
      simp only [size] at hfuel
      omega
  | succ fuel ih =>
      cases hp : h.parent? c with
      | none =>
          rw [cycleWithin, hp]
          exact .done fun q hq => by rw [hp] at hq; cases hq
      | some p =>
          rw [cycleWithin, hp]
          dsimp only
          split
          · rename_i hmet
            exact .closed hp hmet
          · rename_i hnew
            refine .step hp hnew (ih (List.nodup_cons.mpr ⟨hnew, hnodup⟩)
              (List.cons_subset.mpr ⟨hparent hp, hmem⟩) ?_)
            simp only [List.length_cons]
            omega

/-! ## Well-declared programs -/

/-- The classes of a program, installed without a report. -/
def installed (p : Program) : Hierarchy :=
  ⟨(allClasses p).map entryOf, false⟩

/-- Where the search for a cycle from a class stops. -/
def cycleFrom (p : Program) (c : Name) : Option Name :=
  (installed p).cycleWithin ((installed p).size + 1) [] c

section

variable {p : Program}

theorem names_installed : (installed p).names = (allClasses p).map (·.name) := by
  rw [names, installed, List.map_map]
  rfl

theorem mem_names_installed {c : Name} :
    c ∈ (installed p).names ↔ c.isBuiltin = true ∨ c ∈ p.classes.map (·.name) := by
  rw [names_installed, allClasses, List.map_append, List.mem_append, isBuiltin_iff, List.mem_map]

theorem parentOf_iff (hnodup : ((allClasses p).map (·.name)).Nodup) {c q : Name} :
    (installed p).parent? c = some q ↔ ParentOf p c q := by
  rw [parent?_eq_some_iff]
  refine and_congr_right fun _ => ⟨?_, ?_⟩
  · rintro ⟨e, he, rfl⟩
    have hname : e.name = c := by simpa using List.find?_some he
    obtain ⟨d, hd, rfl⟩ := List.mem_map.mp (List.mem_of_find?_eq_some he)
    exact ⟨d, hd, hname, rfl⟩
  · rintro ⟨d, hd, rfl, rfl⟩
    exact ⟨entryOf d, entry?_eq_some (names_installed ▸ hnodup) (List.mem_map_of_mem hd), rfl⟩

namespace WellDeclared

variable (hp : WellDeclared p)

include hp

theorem all_names_nodup : ((allClasses p).map (·.name)).Nodup := by
  rw [allClasses, List.map_append]
  refine List.Nodup.append (by decide) hp.names_nodup fun c hbuiltin hc => ?_
  obtain ⟨d, hd, rfl⟩ := List.mem_map.mp hc
  have hnot := (hp.names_free d hd).1
  rw [isBuiltin_iff.mpr (List.mem_map.mp hbuiltin)] at hnot
  cases hnot

theorem selfType_not_mem : Name.selfType ∉ (allClasses p).map (·.name) := by
  rw [allClasses, List.map_append, List.mem_append]
  rintro (hbuiltin | hc)
  · revert hbuiltin
    decide
  · obtain ⟨d, hd, heq⟩ := List.mem_map.mp hc
    exact (hp.names_free d hd).2 heq

theorem parentOf_eq : (fun c q => (installed p).parent? c = some q) = ParentOf p :=
  funext fun _ => funext fun _ => propext (parentOf_iff hp.all_names_nodup)

theorem parent_mem {c q : Name} (hq : (installed p).parent? c = some q) :
    q ∈ (installed p).names := by
  have hbuiltin : ∀ d ∈ Builtin.classes, d.name ≠ .object →
      (declaredParent d).isBuiltin = true := by
    decide
  obtain ⟨hne, d, hd, rfl, rfl⟩ := (parentOf_iff hp.all_names_nodup).mp hq
  rw [mem_names_installed]
  rcases List.mem_append.mp hd with hd | hd
  · exact .inl (hbuiltin d hd hne)
  · exact (hp.parents d hd).1

theorem install_eq : install ⟨[], false⟩ (Builtin.classes ++ p.classes) = (installed p, []) :=
  install_of_nodup (h := ⟨[], false⟩) hp.all_names_nodup hp.selfType_not_mem

theorem parentReports_eq : (installed p).parentReports = [] := by
  refine List.filterMap_eq_nil_iff.mpr fun e he => ?_
  obtain ⟨c, hc, rfl⟩ := List.mem_map.mp he
  split
  · rfl
  · rename_i hbuiltin
    have hdeclared : c ∈ p.classes := by
      refine (List.mem_append.mp hc).resolve_left fun hc => hbuiltin ?_
      exact isBuiltin_iff.mpr ⟨c, hc, rfl⟩
    obtain ⟨hmem, hlegal⟩ := hp.parents c hdeclared
    have hhas := mem_names_installed.mpr hmem
    have hself : declaredParent c ≠ .selfType := fun heq =>
      hp.selfType_not_mem (names_installed ▸ heq ▸ hhas)
    have hnone : (installed p).parentProblem? (declaredParent c) = none := by
      rw [parentProblem?, if_neg (by simp_all), if_pos (has_iff.mpr hhas)]
    exact congrArg (Option.map _) hnone

/-- Only cycles are reported. -/
theorem build_eq : (build p).2 = (installed p).cycleReports ∧
    ((build p).1.valid = true ↔ (installed p).cycleReports = []) := by
  have hbuild : build p = if (installed p).cycleReports.isEmpty then
      ({ installed p with valid := true }, []) else (installed p, (installed p).cycleReports) := by
    simp only [build, hp.install_eq, hp.parentReports_eq]
    rfl
  rw [hbuild]
  cases hcycles : (installed p).cycleReports with
  | nil => exact ⟨rfl, iff_of_true rfl rfl⟩
  | cons r rs => exact ⟨rfl, iff_of_false Bool.false_ne_true (List.cons_ne_nil r rs)⟩

theorem mem_names_of_reaches {c q : Name} (hc : c ∈ (installed p).names) (hq : Reaches p c q) :
    q ∈ (installed p).names := by
  induction hq with
  | refl => exact hc
  | tail _ hparent _ => exact hp.parent_mem ((parentOf_iff hp.all_names_nodup).mpr hparent)

theorem parent_unique (a b c : Name) (hab : ParentOf p a b) (hac : ParentOf p a c) : b = c := by
  rw [← parentOf_iff hp.all_names_nodup] at hab hac
  exact Option.some.inj (hab.symm.trans hac)

theorem no_parent_iff {c : Name} (hc : c ∈ (installed p).names) :
    (∀ q, ¬ ParentOf p c q) ↔ c = .object := by
  constructor
  · intro hnone
    by_contra hne
    obtain ⟨q, hq⟩ := exists_parent? hc hne
    exact hnone q ((parentOf_iff hp.all_names_nodup).mp hq)
  · rintro rfl q ⟨hne, -⟩
    exact hne rfl

variable {c : Name} (hc : c ∈ (installed p).names)

include hc

theorem walk_cycleFrom : Walk (ParentOf p) [] c (cycleFrom p c) :=
  hp.parentOf_eq ▸ walk_cycleWithin hp.parent_mem (List.nodup_singleton c)
    (List.cons_subset.mpr ⟨hc, List.nil_subset _⟩) (by simp)

/-- The class at which the search stops is on the cycle that the parents run into. -/
theorem on_cycle_of_cycleFrom {q : Name} (hq : cycleFrom p c = some q) :
    Reaches p c q ∧ TransGen (ParentOf p) q q :=
  (hp.walk_cycleFrom hc).on_cycle hq (fun _ ha => absurd ha List.not_mem_nil)

theorem cycleFrom_eq_none_iff : cycleFrom p c = none ↔ Reaches p c .object := by
  have hroot : ∀ q, ¬ ParentOf p .object q := fun q hq => hq.1 rfl
  constructor
  · intro hnone
    obtain ⟨q, hq, hend⟩ := (hp.walk_cycleFrom hc).exists_end hnone
    rwa [(hp.no_parent_iff (hp.mem_names_of_reaches hc hq)).mp hend] at hq
  · intro hreach
    cases hstop : cycleFrom p c with
    | none => rfl
    | some q =>
        obtain ⟨hcq, hcycle⟩ := hp.on_cycle_of_cycleFrom hc hstop
        exact absurd hreach (not_reaches_end_of_cycle hp.parent_unique hcycle hcq hroot)

end WellDeclared

theorem cycleReports_installed : (installed p).cycleReports = (allClasses p).filterMap fun c =>
    (cycleFrom p c.name).map fun q => ⟨c.span, .cycle c.name q⟩ := by
  rw [cycleReports, installed, List.filterMap_map]
  rfl

theorem WellDeclared.valid_iff (hp : WellDeclared p) :
    (build p).1.valid = true ↔ ∀ c ∈ allClasses p, Reaches p c.name .object := by
  rw [hp.build_eq.2, cycleReports_installed, List.filterMap_eq_nil_iff]
  refine forall₂_congr fun c hc => ?_
  rw [Option.map_eq_none_iff, hp.cycleFrom_eq_none_iff (names_installed ▸ List.mem_map_of_mem hc)]

theorem wellDeclared_of_valid (hv : (build p).1.valid = true) : WellDeclared p := by
  obtain ⟨heq, hnodup, hself, hparents, -⟩ := build_eq_nil (build_eq_nil_iff_valid.mpr hv)
  have hnames : (build p).1.names = (installed p).names := by
    rw [names_build hv, names_installed, allClasses]
  rw [hnames] at hnodup hself
  have hdisjoint := hnodup
  rw [names_installed, allClasses, List.map_append, List.nodup_append] at hdisjoint
  have hfree : ∀ c ∈ p.classes, c.name.isBuiltin = false := by
    intro c hc
    rw [← Bool.not_eq_true, isBuiltin_iff]
    rintro ⟨d, hd, hname⟩
    exact hdisjoint.2.2 _ (List.mem_map_of_mem hd) _ (List.mem_map_of_mem hc) hname
  refine ⟨hdisjoint.2.1, fun c hc => ⟨hfree c hc, fun hname => hself ?_⟩, fun c hc => ?_⟩
  · exact hname ▸ mem_names_installed.mpr (.inr (List.mem_map_of_mem hc))
  · have hentry : entryOf c ∈ (build p).1.entries := by
      rw [heq]
      exact List.mem_map_of_mem (List.mem_append_right _ hc)
    obtain ⟨hmem, hlegal⟩ := parent_mem_of_parentReports hparents hentry (hfree c hc)
    refine ⟨mem_names_installed.mp (hnames ▸ hmem), fun hprimitive => hlegal ?_⟩
    simp only [List.mem_cons, List.not_mem_nil, or_false] at hprimitive ⊢
    rcases hprimitive with h | h | h
    · exact .inr (.inl h)
    · exact .inl h
    · exact .inr (.inr (.inl h))

end

/-- A program has a valid hierarchy exactly if the names of its classes are distinct and free, their
parents are there and may be inherited from, and following parents from any class leads to the root.
If only the last can fail, the walk from each class ends, and what is reported are, in the order of
installation, the classes from which the root is not reached, each with a class on the cycle that
its parents run into. -/
theorem validation_exact (p : Program) :
    ((build p).1.valid = true ↔
      WellDeclared p ∧ ∀ c ∈ allClasses p, Reaches p c.name .object) ∧
    (WellDeclared p → ∃ stop : Name → Option Name,
      (build p).2 = ((allClasses p).filterMap fun c =>
        (stop c.name).map fun q => ⟨c.span, .cycle c.name q⟩) ∧
      ∀ c ∈ allClasses p, Walk (ParentOf p) [] c.name (stop c.name) ∧
        (stop c.name = none ↔ Reaches p c.name .object) ∧
        ∀ q, stop c.name = some q → Reaches p c.name q ∧ TransGen (ParentOf p) q q ∧
          (Problem.cycle c.name q).message = "class " ++ c.name.text ++
            ": cyclic class inheritance with class (" ++ q.text ++ ")") := by
  refine ⟨⟨fun hv => ?_, fun ⟨hp, hreach⟩ => hp.valid_iff.mpr hreach⟩, fun hp => ?_⟩
  · have hp := wellDeclared_of_valid hv
    exact ⟨hp, hp.valid_iff.mp hv⟩
  · refine ⟨cycleFrom p, hp.build_eq.1.trans cycleReports_installed, fun c hc => ?_⟩
    have hmem : c.name ∈ (installed p).names := names_installed ▸ List.mem_map_of_mem hc
    refine ⟨hp.walk_cycleFrom hmem, hp.cycleFrom_eq_none_iff hmem, fun q hq => ?_⟩
    obtain ⟨hreach, hcycle⟩ := hp.on_cycle_of_cycleFrom hmem hq
    exact ⟨hreach, hcycle, rfl⟩

/-- Two classes that inherit from each other, one below them, and one beside them. -/
def circular : Program :=
  let span : Span := ⟨"circle.cl", 1⟩
  ⟨span, [⟨⟨"circle.cl", 2⟩, .named "C", .named "B", []⟩,
    ⟨⟨"circle.cl", 3⟩, .named "B", .named "A", []⟩,
    ⟨⟨"circle.cl", 4⟩, .named "A", .named "B", []⟩,
    ⟨⟨"circle.cl", 5⟩, .named "D", .anonymous, []⟩]⟩

theorem validation_of_circular :
    WellDeclared circular ∧ (build circular).1.valid = false ∧
      (build circular).2 =
        [⟨⟨"circle.cl", 2⟩, .cycle (.named "C") (.named "B")⟩,
          ⟨⟨"circle.cl", 3⟩, .cycle (.named "B") (.named "B")⟩,
          ⟨⟨"circle.cl", 4⟩, .cycle (.named "A") (.named "A")⟩] ∧
      ¬ Reaches circular (.named "C") .object ∧ Reaches circular (.named "C") (.named "B") ∧
      TransGen (ParentOf circular) (.named "B") (.named "B") := by
  have hwell : WellDeclared circular := ⟨by decide, by decide, by decide⟩
  obtain ⟨stop, hreports, hstops⟩ := (validation_exact circular).2 hwell
  have hreported : (⟨⟨"circle.cl", 2⟩, .cycle (.named "C") (.named "B")⟩ : Report Problem) ∈
      (build circular).2 := by decide
  rw [hreports] at hreported
  obtain ⟨c, hc, hstop⟩ := List.mem_filterMap.mp hreported
  obtain ⟨q, hq, heq⟩ := Option.map_eq_some_iff.mp hstop
  injection heq with _ hproblem
  injection hproblem with hname hq'
  obtain ⟨-, hroot, hcycle⟩ := hstops c hc
  obtain ⟨hreach, hcycle, -⟩ := hcycle q hq
  rw [hname, hq'] at hreach
  rw [hq'] at hcycle
  rw [hname] at hroot hq
  refine ⟨hwell, by decide, by decide, fun hobject => ?_, hreach, hcycle⟩
  rw [hroot.mpr hobject] at hq
  cases hq

end Cool.Hierarchy
