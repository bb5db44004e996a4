import Cool.Proofs.Members.Slots

/-! The nearest declaration of a method: the entry that a class has for a method names it, and the
methods of the classes above keep their places. -/

namespace Cool

namespace Hierarchy

/-- Whether a class has a declaration of a method of the given name. -/
def DeclaresMethod (h : Hierarchy) (c x : Name) : Prop :=
  ∃ decl d, h.decl? c = some decl ∧ .method d ∈ decl.features ∧ d.name = x

/-- The first class on the way up from a class, itself included, that declares a method. -/
structure IsNearest (h : Hierarchy) (c x d : Name) : Prop where
  above : h.Inherits c d
  declares : h.DeclaresMethod d x
  first : ∀ e, h.Inherits c e → h.DeclaresMethod e x → h.Inherits d e

theorem IsNearest.unique {h : Hierarchy} (hr : h.Rooted) {c x d d' : Name}
    (hd : h.IsNearest c x d) (hd' : h.IsNearest c x d') : d = d' :=
  Inherits.antisymm hr (hd.first d' hd'.above hd'.declares) (hd'.first d hd.above hd.declares)

theorem IsNearest.of_parent {h : Hierarchy} {c p x d : Name} (hp : h.parent? c = some p)
    (hnot : ¬ h.DeclaresMethod c x) (hd : h.IsNearest p x d) : h.IsNearest c x d := by
  refine ⟨.of_parent hp hd.above, hd.declares, fun e he hdeclares => ?_⟩
  rcases he.cases_parent with rfl | ⟨q, hq, hqe⟩
  · exact absurd hdeclares hnot
  · cases hp.symm.trans hq
    exact hd.first e hqe hdeclares

end Hierarchy

namespace Members

/-- The entry of a method names the nearest class that declares it as its definer. -/
theorem Coherent.isNearest_definer {ms : Members} (hco : ms.Coherent) {c : Name}
    (hc : c ∈ ms.hierarchy.names) :
    ∀ e ∈ ms.methods c c, ms.hierarchy.IsNearest c e.name e.definer := by
  refine hco.rooted.parent_induction
    (P := fun c => ∀ e ∈ ms.methods c c, ms.hierarchy.IsNearest c e.name e.definer)
    (fun c hc ih => ?_) hc
  intro e he
  obtain ⟨decl, draft, hdecl, haccepted, hof⟩ := hco.resolved c hc
  by_cases hdeclares : ms.hierarchy.DeclaresMethod c e.name
  · obtain ⟨decl', d, hdecl', hd, hname⟩ := hdeclares
    obtain ⟨o, ho, hdeclared⟩ := hco.declared_method hc hdecl' hd
    obtain rfl := hco.method_unique hc he ho (hdeclared.name.trans hname).symm
    rw [show e.definer = c from hdeclared.definer]
    exact ⟨.refl c, ⟨decl', d, hdecl', hd, hname⟩, fun _ hbelow _ => hbelow⟩
  -- a class that does not declare the method has it from its parent
  · have hmem := he
    rw [methods_of hof (hco.ne_selfType hc)] at hmem
    rcases Site.mem_allMethods hmem with hown | ⟨i, hi, heq⟩
    · obtain ⟨d, hd, hdeclared⟩ := haccepted.declares hown
      exact absurd ⟨decl, d, hdecl, hd, hdeclared.name.symm⟩ hdeclares
    · cases hp : ms.hierarchy.parent? c with
      | none =>
          rw [inherited_of_root hp] at hi
          cases hi
      | some p =>
          rw [hco.inherited_methods hp] at hi
          subst heq
          exact .of_parent hp hdeclares (ih p hp i hi)

/-- A class has the methods of the classes above it in the same places, with the same
interfaces. -/
theorem getElem?_of_inherits {ms : Members} {h : Hierarchy} {reports : List (Report Problem)}
    (hr : h.Rooted) (hb : build h = .ok (ms, reports)) {c d : Name} (hcd : h.Inherits c d) {k : Nat}
    {m : MethodEntry} (hm : (ms.methods d d)[k]? = some m) :
    ∃ e, (ms.methods c c)[k]? = some e ∧ e.interface = m.interface := by
  induction hcd using Relation.ReflTransGen.head_induction_on with
  | refl => exact ⟨m, hm, rfl⟩
  | head hp _ ih =>
      obtain ⟨i, hi, hinterface⟩ := ih
      obtain ⟨-, es, hprefix, hdescends⟩ := members_of_parent hr hb hp
      obtain ⟨hk, rfl⟩ := List.getElem?_eq_some_iff.mp hi
      have hk' : k < es.length := hdescends.length_eq ▸ hk
      refine ⟨es[k], ?_, (List.Forall₂.get hdescends hk hk').interface_eq.trans hinterface⟩
      obtain ⟨rest, hrest⟩ := hprefix
      rw [← hrest, List.getElem?_append_left hk', List.getElem?_eq_getElem hk']

end Members

end Cool
