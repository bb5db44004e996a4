import Cool.Hierarchy.Build
import Mathlib.Data.List.Nodup
import Mathlib.Data.List.Perm.Subperm

/-! What the hierarchy of a program promises once nothing is wrong with it: the names of the classes
are distinct, every parent is installed, and every walk upwards ends before its bound. -/

namespace Cool

/-- Where the keys of a list are distinct, looking up a key finds the member that has it. -/
theorem find?_of_nodup_map {α β : Type} [DecidableEq β] {key : α → β} {xs : List α}
    (hn : (xs.map key).Nodup) {x : α} (hx : x ∈ xs) :
    xs.find? (fun y => decide (key y = key x)) = some x := by
  cases hf : xs.find? (fun y => decide (key y = key x)) with
  | none =>
      have hnone := List.find?_eq_none.mp hf x hx
      simp at hnone
  | some y =>
      have hkey : key y = key x := by simpa using List.find?_some hf
      rw [List.inj_on_of_nodup_map hn (List.mem_of_find?_eq_some hf) hx hkey]

/-- Where the keys of a list are distinct, one member has a key. -/
theorem filter_of_nodup_map {α β : Type} [DecidableEq β] {key : α → β} {xs : List α}
    (hn : (xs.map key).Nodup) {x : α} (hx : x ∈ xs) :
    xs.filter (fun y => decide (key y = key x)) = [x] := by
  induction xs with
  | nil => cases hx
  | cons y xs ih =>
      obtain ⟨hnot, hrest⟩ := List.nodup_cons.mp hn
      rcases List.mem_cons.mp hx with rfl | hx
      · rw [List.filter_cons_of_pos (by simp), List.filter_eq_nil_iff.mpr]
        intro z hz heq
        exact hnot (of_decide_eq_true heq ▸ List.mem_map_of_mem hz)
      · have hne : key y ≠ key x := fun heq => hnot (heq ▸ List.mem_map_of_mem hx)
        rw [List.filter_cons_of_neg (by simpa using hne), ih hrest hx]

namespace Hierarchy

/-! ## Looking classes up -/

theorem has_iff {h : Hierarchy} {c : Name} : h.has c = true ↔ c ∈ h.names := by
  simp [has, entry?, names]

theorem entry?_eq_some {h : Hierarchy} (hn : h.names.Nodup) {e : ClassEntry}
    (he : e ∈ h.entries) : h.entry? e.name = some e :=
  find?_of_nodup_map hn he

theorem parent?_object (h : Hierarchy) : h.parent? .object = none := by
  simp [parent?]

theorem parent?_eq_some_iff {h : Hierarchy} {c p : Name} :
    h.parent? c = some p ↔ c ≠ .object ∧ ∃ e, h.entry? c = some e ∧ e.parent = p := by
  unfold parent?
  split
  · simp_all
  · simp_all

theorem mem_names_of_parent? {h : Hierarchy} {c p : Name} (hp : h.parent? c = some p) :
    c ∈ h.names := by
  obtain ⟨_, e, he, _⟩ := parent?_eq_some_iff.mp hp
  exact has_iff.mp (by simp [has, he])

/-- Only the root has no parent. -/
theorem exists_parent? {h : Hierarchy} {c : Name} (hc : c ∈ h.names) (hne : c ≠ .object) :
    ∃ p, h.parent? c = some p := by
  obtain ⟨e, he⟩ := Option.isSome_iff_exists.mp (has_iff.mpr hc)
  exact ⟨e.parent, parent?_eq_some_iff.mpr ⟨hne, e, he, rfl⟩⟩

/-! ## Bounded walks -/

/-- A walk that ends before its bound ends at the same place under any larger bound. -/
theorem depthWithin_eq_of_lt (h : Hierarchy) {small large : Nat} {c : Name}
    (hlt : h.depthWithin small c < small) (hle : small ≤ large) :
    h.depthWithin large c = h.depthWithin small c := by
  induction small generalizing large c with
  | zero => exact absurd hlt (Nat.not_lt_zero _)
  | succ small ih =>
      cases large with
      | zero => exact absurd hle (Nat.not_succ_le_zero _)
      | succ large =>
          cases hp : h.parent? c with
          | none => simp [depthWithin, hp]
          | some p =>
              simp only [depthWithin, hp] at hlt ⊢
              rw [ih (Nat.lt_of_succ_lt_succ hlt) (Nat.le_of_succ_le_succ hle)]

/-- The classes of a hierarchy form a tree below the root. -/
structure Rooted (h : Hierarchy) : Prop where
  names_nodup : h.names.Nodup
  selfType_not_mem : Name.selfType ∉ h.names
  object_mem : Name.object ∈ h.names
  parent_mem : ∀ {c p : Name}, h.parent? c = some p → p ∈ h.names
  depth_le : ∀ c : Name, h.depth c ≤ h.size

/-- A walk that meets no class twice is shorter than the number of classes. -/
theorem depthWithin_lt_of_cycleWithin {h : Hierarchy}
    (hparent : ∀ {c p : Name}, h.parent? c = some p → p ∈ h.names)
    {fuel : Nat} {met : List Name} {c : Name} (hcycle : h.cycleWithin fuel met c = none)
    (hnodup : (c :: met).Nodup) (hmem : c :: met ⊆ h.names)
    (hfuel : h.size + 1 ≤ met.length + fuel) : h.depthWithin fuel c < fuel := by
  induction fuel generalizing met c with
  | zero =>
      have hlen := (hnodup.subperm hmem).length_le
      simp only [List.length_cons, names, List.length_map] at hlen
      simp only [size] at hfuel
      omega
  | succ fuel ih =>
      cases hp : h.parent? c with
      | none => simp [depthWithin, hp]
      | some p =>
          simp only [cycleWithin, hp] at hcycle
          split at hcycle
          · cases hcycle
          · rename_i hnew
            have hlt := ih hcycle (List.nodup_cons.mpr ⟨hnew, hnodup⟩)
              (List.cons_subset.mpr ⟨hparent hp, hmem⟩)
              (by simp only [List.length_cons]; omega)
            simp only [depthWithin, hp]
            omega

/-! ## Installing -/

/-- The entry of an installed declaration. -/
def entryOf (c : ClassDecl) : ClassEntry :=
  ⟨c, if c.parent = .anonymous then .object else c.parent⟩

@[simp] theorem entryOf_name (c : ClassDecl) : (entryOf c).name = c.name := rfl

theorem entryFor_eq_ok {h : Hierarchy} {c : ClassDecl} {e : ClassEntry}
    (he : h.entryFor c = .ok e) :
    e = entryOf c ∧ c.name ∉ h.names ∧ c.name ≠ .selfType := by
  unfold entryFor at he
  split at he
  · cases he
  · split at he
    · cases he
    · rename_i hnew hself
      cases he
      exact ⟨rfl, fun hm => hnew (has_iff.mpr hm), hself⟩

/-- What is installed without a report: every class given, in order, under names of its own. -/
theorem install_silent {h h' : Hierarchy} {cs : List ClassDecl}
    (hi : h.install cs = (h', [])) (hn : h.names.Nodup) (hs : Name.selfType ∉ h.names) :
    h' = { h with entries := h.entries ++ cs.map entryOf } ∧
      h'.names.Nodup ∧ Name.selfType ∉ h'.names := by
  induction cs generalizing h with
  | nil =>
      simp only [install, Prod.mk.injEq] at hi
      obtain ⟨rfl, -⟩ := hi
      simp [hn, hs]
  | cons c cs ih =>
      cases he : h.entryFor c with
      | error problem => simp [install, he] at hi
      | ok e =>
          obtain ⟨rfl, hnew, hself⟩ := entryFor_eq_ok he
          simp only [install, he] at hi
          have hn' : ({ h with entries := h.entries ++ [entryOf c] } : Hierarchy).names.Nodup := by
            simp only [names, List.map_append, List.map_cons, List.map_nil, entryOf_name]
            exact List.Nodup.append hn (List.nodup_singleton _)
              (List.disjoint_singleton.mpr hnew)
          have hs' : Name.selfType ∉
              ({ h with entries := h.entries ++ [entryOf c] } : Hierarchy).names := by
            simp only [names, List.map_append, List.map_cons, List.map_nil, entryOf_name,
              List.mem_append, List.mem_singleton, not_or]
            exact ⟨hs, fun heq => hself heq.symm⟩
          obtain ⟨hh, hnd, hnot⟩ := ih hi hn' hs'
          exact ⟨by simpa using hh, hnd, hnot⟩

theorem install_valid {h h' : Hierarchy} {cs : List ClassDecl} {reports : List (Report Problem)}
    (hi : h.install cs = (h', reports)) : h'.valid = h.valid := by
  induction cs generalizing h h' reports with
  | nil =>
      simp only [install, Prod.mk.injEq] at hi
      rw [hi.1]
  | cons c cs ih =>
      cases he : h.entryFor c with
      | ok e =>
          simp only [install, he] at hi
          have hv := ih hi
          exact hv
      | error problem =>
          cases hrest : h.install cs with
          | mk h'' rest =>
              simp only [install, he, hrest, Prod.mk.injEq] at hi
              rw [← hi.1]
              exact ih hrest

/-- The hierarchy with one more class, or as it is if the class cannot be installed. -/
def installOne (h : Hierarchy) (c : ClassDecl) : Hierarchy :=
  match h.entryFor c with
  | .ok e => { h with entries := h.entries ++ [e] }
  | .error _ => h

theorem install_fst (h : Hierarchy) (cs : List ClassDecl) :
    (h.install cs).1 = cs.foldl installOne h := by
  induction cs generalizing h with
  | nil => rfl
  | cons c cs ih =>
      rw [List.foldl_cons, ← ih, install, installOne]
      cases h.entryFor c <;> rfl

/-- No class takes the name of one that is installed. -/
theorem installOne_nodup {h : Hierarchy} (hn : h.names.Nodup) (c : ClassDecl) :
    (h.installOne c).names.Nodup := by
  unfold installOne
  split
  · rename_i e he
    obtain ⟨rfl, hnew, -⟩ := entryFor_eq_ok he
    simp only [names, List.map_append, List.map_cons, List.map_nil, entryOf_name]
    exact List.Nodup.append hn (List.nodup_singleton _) (List.disjoint_singleton.mpr hnew)
  · exact hn

theorem foldl_installOne_nodup {h : Hierarchy} (hn : h.names.Nodup) (cs : List ClassDecl) :
    (cs.foldl installOne h).names.Nodup := by
  induction cs generalizing h with
  | nil => exact hn
  | cons c cs ih => exact ih (installOne_nodup hn c)

/-- What is installed stays in its place. -/
theorem entries_prefix_foldl_installOne (h : Hierarchy) (cs : List ClassDecl) :
    h.entries <+: (cs.foldl installOne h).entries := by
  induction cs generalizing h with
  | nil => exact List.prefix_refl _
  | cons c cs ih =>
      refine List.IsPrefix.trans ?_ (ih (h.installOne c))
      unfold installOne
      split
      · exact List.prefix_append _ _
      · exact List.prefix_refl _

/-! ## Building -/

theorem build_entries (p : Program) : (build p).1.entries =
    ((Builtin.classes ++ p.classes).foldl installOne ⟨[], false⟩).entries := by
  rw [← install_fst]
  unfold build
  dsimp only
  split
  · split <;> rfl
  · rfl

theorem names_nodup_build (p : Program) : (build p).1.names.Nodup := by
  rw [names, build_entries]
  exact foldl_installOne_nodup (h := ⟨[], false⟩) List.nodup_nil _

/-- Whatever a program declares, the builtin classes are installed first. -/
theorem builtin_prefix_build (p : Program) :
    Builtin.classes.map entryOf <+: (build p).1.entries := by
  have hbuiltin : Builtin.classes.foldl installOne ⟨[], false⟩ =
      ⟨Builtin.classes.map entryOf, false⟩ := rfl
  rw [build_entries, List.foldl_append, hbuiltin]
  exact entries_prefix_foldl_installOne ⟨Builtin.classes.map entryOf, false⟩ p.classes

/-- The walk upwards does not ask whether the hierarchy is valid. -/
theorem cycleWithin_valid (entries : List ClassEntry) (v w : Bool) (fuel : Nat)
    (met : List Name) (c : Name) :
    cycleWithin ⟨entries, v⟩ fuel met c = cycleWithin ⟨entries, w⟩ fuel met c := by
  induction fuel generalizing met c with
  | zero => rfl
  | succ fuel ih =>
      simp only [cycleWithin, ih]
      rfl

/-- Nothing is reported exactly if the hierarchy is valid. It then holds the builtin classes
followed by those of the program, and no rule about parents is broken. -/
theorem build_eq_nil {p : Program} (hr : (build p).2 = []) :
    (build p).1 = ⟨(Builtin.classes ++ p.classes).map entryOf, true⟩ ∧
      (build p).1.names.Nodup ∧ Name.selfType ∉ (build p).1.names ∧
      (build p).1.parentReports = [] ∧
      ∀ c ∈ (build p).1.names,
        (build p).1.cycleWithin ((build p).1.size + 1) [] c = none := by
  unfold build at hr ⊢
  cases hi : install ⟨[], false⟩ (Builtin.classes ++ p.classes) with
  | mk h reports =>
      simp only [hi] at hr ⊢
      split at hr
      · rename_i hempty
        have hnone : reports = [] ∧ h.parentReports = [] := by
          simpa using List.isEmpty_iff.mp hempty
        obtain ⟨rfl, hparents⟩ := hnone
        obtain ⟨rfl, hnodup, hself⟩ :=
          install_silent hi (by simp [names]) (by simp [names])
        split at hr
        · rename_i hcycles
          rw [if_pos hempty, if_pos hcycles]
          refine ⟨by simp, hnodup, hself, hparents, ?_⟩
          intro c hc
          obtain ⟨e, he, rfl⟩ := List.mem_map.mp hc
          have hnone := List.filterMap_eq_nil_iff.mp (List.isEmpty_iff.mp hcycles) e he
          rw [cycleWithin_valid _ true false]
          simpa [size] using hnone
        · rename_i hcycles
          exact absurd (List.isEmpty_iff.mpr hr) hcycles
      · rename_i hempty
        exact absurd (List.isEmpty_iff.mpr hr) hempty

theorem build_eq_nil_iff_valid {p : Program} : (build p).2 = [] ↔ (build p).1.valid = true := by
  refine ⟨fun hr => by rw [(build_eq_nil hr).1], ?_⟩
  intro hv
  unfold build at hv ⊢
  cases hi : install ⟨[], false⟩ (Builtin.classes ++ p.classes) with
  | mk h reports =>
      have hfalse : h.valid = false := install_valid hi
      simp only [hi] at hv ⊢
      split at hv <;> rename_i hempty
      · split at hv <;> rename_i hcycles
        · rw [if_pos hempty, if_pos hcycles]
        · simp [hfalse] at hv
      · simp [hfalse] at hv

theorem isBuiltin_iff {n : Name} : n.isBuiltin = true ↔ ∃ c ∈ Builtin.classes, c.name = n := by
  have hnames : [Name.object, .io, .int, .bool, .string] = Builtin.classes.map (·.name) := rfl
  rw [Name.isBuiltin, hnames, decide_eq_true_iff, List.mem_map]

/-- The builtin classes and those of the program are installed as they are. -/
theorem entry?_of_mem {p : Program} (hv : (build p).1.valid = true) {c : ClassDecl}
    (hc : c ∈ Builtin.classes ++ p.classes) : entry? (build p).1 c.name = some (entryOf c) := by
  obtain ⟨heq, hnodup, -⟩ := build_eq_nil (build_eq_nil_iff_valid.mpr hv)
  have hin : entryOf c ∈ (build p).1.entries := by
    rw [heq]
    exact List.mem_map_of_mem hc
  simpa using entry?_eq_some hnodup hin

theorem decl?_of_mem {p : Program} (hv : (build p).1.valid = true) {c : ClassDecl}
    (hc : c ∈ Builtin.classes ++ p.classes) : decl? (build p).1 c.name = some c := by
  rw [decl?, entry?_of_mem hv hc]
  rfl

theorem names_build {p : Program} (hv : (build p).1.valid = true) :
    (build p).1.names = (Builtin.classes ++ p.classes).map (·.name) := by
  rw [names, (build_eq_nil (build_eq_nil_iff_valid.mpr hv)).1, List.map_map]
  rfl

theorem entry?_builtin (p : Program) {c : ClassDecl} (hc : c ∈ Builtin.classes) :
    entry? (build p).1 c.name = some (entryOf c) := by
  obtain ⟨rest, hrest⟩ := builtin_prefix_build p
  have hfound : (Builtin.classes.map entryOf).find? (·.name = (entryOf c).name) =
      some (entryOf c) :=
    find?_of_nodup_map (by decide) (List.mem_map_of_mem hc)
  rw [← entryOf_name, entry?, ← hrest, List.find?_append, hfound]
  rfl

/-- The builtin classes inherit from the root. -/
theorem parent?_builtin (p : Program) {c : Name} (hb : c.isBuiltin = true) (hne : c ≠ .object) :
    (build p).1.parent? c = some .object := by
  obtain ⟨d, hd, rfl⟩ := isBuiltin_iff.mp hb
  refine parent?_eq_some_iff.mpr ⟨hne, entryOf d, entry?_builtin p hd, ?_⟩
  simp only [Builtin.classes, List.mem_cons, List.not_mem_nil, or_false] at hd
  rcases hd with rfl | rfl | rfl | rfl | rfl
  · exact absurd rfl hne
  all_goals rfl

theorem parent_mem_of_parentReports {h : Hierarchy} (hp : h.parentReports = [])
    {e : ClassEntry} (he : e ∈ h.entries) (hb : e.name.isBuiltin = false) :
    e.parent ∈ h.names ∧ e.parent ∉ [Name.bool, .int, .string, .selfType] := by
  have hnone := List.filterMap_eq_nil_iff.mp hp e he
  simp only [hb, Bool.false_eq_true, ↓reduceIte, Option.map_eq_none_iff, parentProblem?] at hnone
  split at hnone
  · cases hnone
  · rename_i hlegal
    split at hnone
    · rename_i hhas
      exact ⟨has_iff.mp hhas, hlegal⟩
    · cases hnone

/-- No class inherits from one whose values are constants. -/
theorem parent_not_primitive {p : Program} (hv : (build p).1.valid = true) {c q : Name}
    (hq : (build p).1.parent? c = some q) : q.isPrimitive = false := by
  obtain ⟨-, -, -, hparents, -⟩ := build_eq_nil (build_eq_nil_iff_valid.mpr hv)
  obtain ⟨hne, e, he, rfl⟩ := parent?_eq_some_iff.mp hq
  have hc : e.name = c := by simpa using List.find?_some he
  cases hb : e.name.isBuiltin with
  | true =>
      rw [← hc, parent?_builtin p hb (hc ▸ hne)] at hq
      rw [← Option.some.inj hq]
      rfl
  | false =>
      have hlegal := (parent_mem_of_parentReports hparents (List.mem_of_find?_eq_some he) hb).2
      simp only [List.mem_cons, List.not_mem_nil, or_false, not_or] at hlegal
      simp [Name.isPrimitive, hlegal]

/-- The classes of a valid hierarchy form a tree below the root. -/
theorem rooted_of_valid {p : Program} (hv : (build p).1.valid = true) : Rooted (build p).1 := by
  obtain ⟨heq, hnodup, hself, hparents, hcycle⟩ := build_eq_nil (build_eq_nil_iff_valid.mpr hv)
  have hobject : Name.object ∈ (build p).1.names := by
    rw [heq]
    simp [names, Builtin.classes, Builtin.object]
  have hmem : ∀ {c q : Name}, (build p).1.parent? c = some q → q ∈ (build p).1.names := by
    intro c q hq
    obtain ⟨hne, e, he, rfl⟩ := parent?_eq_some_iff.mp hq
    have hc : e.name = c := by simpa using List.find?_some he
    have hin : e ∈ (build p).1.entries := List.mem_of_find?_eq_some he
    by_cases hb : e.name.isBuiltin = true
    · rw [← hc, parent?_builtin p hb (hc ▸ hne)] at hq
      rw [← Option.some.inj hq]
      exact hobject
    · exact (parent_mem_of_parentReports hparents hin (by simpa using hb)).1
  refine ⟨hnodup, hself, hobject, hmem, ?_⟩
  intro c
  by_cases hc : c ∈ (build p).1.names
  · have hlt := depthWithin_lt_of_cycleWithin hmem (hcycle c hc) (by simp) (by simpa using hc)
      (by simp)
    exact Nat.le_of_lt_succ hlt
  · have hnone : (build p).1.parent? c = none := by
      cases hp : (build p).1.parent? c with
      | none => rfl
      | some q => exact absurd (mem_names_of_parent? hp) hc
    simp [depth, depthWithin, hnone]

end Hierarchy

end Cool
