import Cool.Proofs.Hierarchy.Order

/-! Hierarchies with the same classes. Neither the order in which classes were installed nor the
expressions in them show in any question about them, and whether a program has a valid hierarchy
does not depend on these either. -/

namespace Cool

/-- Where the keys of a list are distinct, looking up a key does not depend on the order. -/
theorem find?_eq_of_perm {α β : Type} [DecidableEq β] {key : α → β} {xs ys : List α}
    (hperm : xs.Perm ys) (hn : (xs.map key).Nodup) (k : β) :
    xs.find? (fun x => decide (key x = k)) = ys.find? (fun x => decide (key x = k)) := by
  have hn' : (ys.map key).Nodup := (hperm.map key).nodup_iff.mp hn
  cases hx : xs.find? (fun x => decide (key x = k)) with
  | some x =>
      have hk : key x = k := by simpa using List.find?_some hx
      rw [← hk, find?_of_nodup_map hn' (hperm.mem_iff.mp (List.mem_of_find?_eq_some hx))]
  | none =>
      refine (List.find?_eq_none.mpr fun y hy => ?_).symm
      exact List.find?_eq_none.mp hx y (hperm.mem_iff.mpr hy)

/-! ## Declarations without their expressions -/

def Feature.outline : Feature → Feature
  | .method m => .method { m with body := .missing }
  | .attr a => .attr { a with init := .missing }

def ClassDecl.outline (c : ClassDecl) : ClassDecl :=
  { c with features := c.features.map (·.outline) }

def ClassEntry.outline (e : ClassEntry) : ClassEntry :=
  { e with decl := e.decl.outline }

namespace Hierarchy

/-- Two hierarchies with the same classes, each with the same parent and, up to the expressions in
it, the same declaration. -/
structure SameClasses (h h' : Hierarchy) : Prop where
  entry? : ∀ c, (h.entry? c).map (·.outline) = (h'.entry? c).map (·.outline)
  size : h.size = h'.size

namespace SameClasses

variable {h h' : Hierarchy} (hs : SameClasses h h')

include hs

theorem has (c : Name) : h.has c = h'.has c := by
  have hsome := congrArg Option.isSome (hs.entry? c)
  rwa [Option.isSome_map, Option.isSome_map] at hsome

theorem mem_names {c : Name} : c ∈ h.names ↔ c ∈ h'.names := by
  rw [← has_iff, ← has_iff, hs.has]

theorem decl? (c : Name) : (h.decl? c).map (·.outline) = (h'.decl? c).map (·.outline) := by
  have hdecl := congrArg (Option.map (·.decl)) (hs.entry? c)
  rw [Option.map_map, Option.map_map] at hdecl
  rw [Hierarchy.decl?, Hierarchy.decl?, Option.map_map, Option.map_map]
  exact hdecl

theorem parent? (c : Name) : h.parent? c = h'.parent? c := by
  have hparent := congrArg (Option.map (·.parent)) (hs.entry? c)
  rw [Option.map_map, Option.map_map] at hparent
  rw [Hierarchy.parent?, Hierarchy.parent?]
  exact if_congr Iff.rfl rfl hparent

theorem depth (c : Name) : h.depth c = h'.depth c := by
  have hwithin : ∀ fuel c, h.depthWithin fuel c = h'.depthWithin fuel c := by
    intro fuel
    induction fuel with
    | zero => exact fun c => rfl
    | succ fuel ih => exact fun c => by simp only [depthWithin, hs.parent?, ih]
  rw [Hierarchy.depth, Hierarchy.depth, hs.size, hwithin]

theorem isBelow (c d : Name) : h.isBelow c d = h'.isBelow c d := by
  have hwithin : ∀ fuel c, h.reachesWithin fuel c d = h'.reachesWithin fuel c d := by
    intro fuel
    induction fuel with
    | zero => exact fun c => rfl
    | succ fuel ih => exact fun c => by simp only [reachesWithin, hs.parent?, ih]
  rw [Hierarchy.isBelow, Hierarchy.isBelow, hs.size, hwithin]

theorem conforms (a b current : Name) : h.conforms a b current = h'.conforms a b current := by
  simp only [Hierarchy.conforms, hs.isBelow]

theorem joinClasses (a b : Name) : h.joinClasses a b = h'.joinClasses a b := by
  have hwithin : ∀ fuel b, h.joinWithin a fuel b = h'.joinWithin a fuel b := by
    intro fuel
    induction fuel with
    | zero => exact fun b => rfl
    | succ fuel ih => exact fun b => by simp only [joinWithin, hs.isBelow, hs.parent?, ih]
  rw [Hierarchy.joinClasses, Hierarchy.joinClasses, hs.size, hwithin]

theorem join (a b current : Name) : h.join a b current = h'.join a b current := by
  simp only [Hierarchy.join, hs.joinClasses]

theorem cycleWithin (fuel : Nat) (met : List Name) (c : Name) :
    h.cycleWithin fuel met c = h'.cycleWithin fuel met c := by
  induction fuel generalizing met c with
  | zero => rfl
  | succ fuel ih => simp only [Hierarchy.cycleWithin, hs.parent?, ih]

end SameClasses

theorem sameClasses_of_perm {entries entries' : List ClassEntry} {v v' : Bool}
    (hperm : (entries.map (·.outline)).Perm (entries'.map (·.outline)))
    (hn : (entries.map (·.name)).Nodup) : SameClasses ⟨entries, v⟩ ⟨entries', v'⟩ := by
  have hfind : ∀ (es : List ClassEntry) (c : Name), (es.find? (·.name = c)).map (·.outline) =
      (es.map (·.outline)).find? (·.name = c) := by
    intro es c
    rw [List.find?_map]
    rfl
  refine ⟨fun c => ?_, by simpa [size] using hperm.length_eq⟩
  have hnames : ((entries.map (·.outline)).map (·.name)).Nodup := by rwa [List.map_map]
  exact (hfind entries c).trans ((find?_eq_of_perm hperm hnames c).trans (hfind entries' c).symm)

/-! ## Validity -/

/-- Classes under names of their own are all installed. -/
theorem install_of_nodup {h : Hierarchy} {cs : List ClassDecl}
    (hn : (h.names ++ cs.map (·.name)).Nodup) (hs : Name.selfType ∉ cs.map (·.name)) :
    h.install cs = ({ h with entries := h.entries ++ cs.map entryOf }, []) := by
  induction cs generalizing h with
  | nil => simp [install]
  | cons c cs ih =>
      have hnew : h.has c.name ≠ true := fun hhas =>
        (List.nodup_append.mp hn).2.2 _ (has_iff.mp hhas) _ List.mem_cons_self rfl
      have hself : c.name ≠ .selfType := fun heq => hs (heq ▸ List.mem_cons_self)
      have hentry : h.entryFor c = .ok (entryOf c) := by
        rw [entryFor, if_neg hnew, if_neg hself]
        rfl
      have hrest := ih (h := { h with entries := h.entries ++ [entryOf c] })
        (by simpa [names] using hn) (fun hmem => hs (List.mem_cons_of_mem _ hmem))
      simpa [install, hentry] using hrest

/-- The rules for the classes of a program, in a form that shows no order. -/
structure Regular (cs : List ClassDecl) : Prop where
  names_nodup : (cs.map (·.name)).Nodup
  selfType_not_mem : Name.selfType ∉ cs.map (·.name)
  parents : ∀ c ∈ cs, c.name.isBuiltin = false →
    (⟨cs.map entryOf, true⟩ : Hierarchy).parentProblem? (entryOf c).parent = none
  acyclic : ∀ c ∈ cs,
    (⟨cs.map entryOf, true⟩ : Hierarchy).cycleWithin (cs.length + 1) [] c.name = none

theorem regular_of_valid {p : Program} (hv : (build p).1.valid = true) :
    Regular (Builtin.classes ++ p.classes) := by
  obtain ⟨heq, hnodup, hself, hparents, hcycle⟩ := build_eq_nil (build_eq_nil_iff_valid.mpr hv)
  have hnames := names_build hv
  rw [hnames] at hnodup hself
  refine ⟨hnodup, hself, fun c hc hbuiltin => ?_, fun c hc => ?_⟩
  · rw [heq, parentReports, List.filterMap_eq_nil_iff] at hparents
    have hnone := hparents (entryOf c) (List.mem_map_of_mem hc)
    rw [entryOf_name, hbuiltin] at hnone
    simpa using hnone
  · have hnone := hcycle c.name (hnames ▸ List.mem_map_of_mem hc)
    rw [heq] at hnone
    simpa only [size, List.length_map] using hnone

theorem valid_of_regular {p : Program} (hp : Regular (Builtin.classes ++ p.classes)) :
    (build p).1 = ⟨(Builtin.classes ++ p.classes).map entryOf, true⟩ := by
  have hinstall : install ⟨[], false⟩ (Builtin.classes ++ p.classes) =
      (⟨(Builtin.classes ++ p.classes).map entryOf, false⟩, []) := by
    simpa using install_of_nodup (h := ⟨[], false⟩) (by simpa [names] using hp.names_nodup)
      hp.selfType_not_mem
  have hparents : (⟨(Builtin.classes ++ p.classes).map entryOf, false⟩ : Hierarchy).parentReports =
      [] := by
    refine List.filterMap_eq_nil_iff.mpr fun e he => ?_
    obtain ⟨c, hc, rfl⟩ := List.mem_map.mp he
    split
    · rfl
    · rename_i hbuiltin
      exact congrArg (Option.map _) (hp.parents c hc (by simpa using hbuiltin))
  have hcycles : (⟨(Builtin.classes ++ p.classes).map entryOf, false⟩ : Hierarchy).cycleReports =
      [] := by
    refine List.filterMap_eq_nil_iff.mpr fun e he => ?_
    obtain ⟨c, hc, rfl⟩ := List.mem_map.mp he
    have hnone := hp.acyclic c hc
    rw [cycleWithin_valid _ true false] at hnone
    simpa only [size, List.length_map, Option.map_eq_none_iff, entryOf_name] using hnone
  simp only [build, hinstall, hparents, hcycles]
  rfl

theorem sameClasses_of_decls {cs cs' : List ClassDecl}
    (hperm : (cs.map (·.outline)).Perm (cs'.map (·.outline))) (hn : (cs.map (·.name)).Nodup) :
    SameClasses ⟨cs.map entryOf, true⟩ ⟨cs'.map entryOf, true⟩ := by
  refine sameClasses_of_perm ?_ (by simpa [Function.comp_def] using hn)
  have hentries := hperm.map entryOf
  rw [List.map_map, List.map_map] at hentries ⊢
  exact hentries

theorem Regular.perm {cs cs' : List ClassDecl} (hcs : Regular cs)
    (hperm : (cs.map (·.outline)).Perm (cs'.map (·.outline))) : Regular cs' := by
  have hnames : (cs.map (·.name)).Perm (cs'.map (·.name)) := by
    have hmap := hperm.map (·.name)
    rwa [List.map_map, List.map_map] at hmap
  have hsame := sameClasses_of_decls hperm hcs.names_nodup
  have hex : ∀ c ∈ cs', ∃ d ∈ cs, d.name = c.name ∧ d.parent = c.parent := by
    intro c hc
    obtain ⟨d, hd, heq⟩ := List.mem_map.mp (hperm.mem_iff.mpr (List.mem_map_of_mem hc))
    obtain ⟨-, hname, hparent, -⟩ := ClassDecl.mk.inj heq
    exact ⟨d, hd, hname, hparent⟩
  refine ⟨hnames.nodup_iff.mp hcs.names_nodup, fun hmem => ?_, fun c hc hbuiltin => ?_,
    fun c hc => ?_⟩
  · exact hcs.selfType_not_mem (hnames.mem_iff.mpr hmem)
  · obtain ⟨d, hd, hname, hparent⟩ := hex c hc
    have hnone := hcs.parents d hd (hname ▸ hbuiltin)
    rwa [parentProblem?, hsame.has, entryOf, hparent] at hnone
  · obtain ⟨d, hd, hname, -⟩ := hex c hc
    have hlength : cs.length = cs'.length := by simpa using hperm.length_eq
    rw [← hsame.cycleWithin, ← hlength, ← hname]
    exact hcs.acyclic d hd

/-- Two programs with the same classes, in whatever order and with whatever expressions in them, are
both valid or both not, and valid ones agree. -/
theorem build_of_perm {p p' : Program}
    (hperm : (p.classes.map (·.outline)).Perm (p'.classes.map (·.outline)))
    (hv : (build p).1.valid = true) :
    (build p').1.valid = true ∧ SameClasses (build p).1 (build p').1 := by
  have hregular := regular_of_valid hv
  have hall : ((Builtin.classes ++ p.classes).map (·.outline)).Perm
      ((Builtin.classes ++ p'.classes).map (·.outline)) := by
    simpa only [List.map_append] using hperm.append_left (Builtin.classes.map (·.outline))
  rw [valid_of_regular hregular, valid_of_regular (hregular.perm hall)]
  exact ⟨rfl, sameClasses_of_decls hall hregular.names_nodup⟩

end Hierarchy

end Cool
