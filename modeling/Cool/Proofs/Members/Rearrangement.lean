import Cool.Proofs.Hierarchy.Rearrangement
import Cool.Proofs.Members.Inheritance

/-! Members over hierarchies with the same classes. The order of the classes decides which slots
their members get and nothing else, neither about the members nor about what is reported, and the
expressions in the classes decide nothing. -/

namespace Cool

/-! ## Members without their slots -/

def AttributeEntry.unslotted (a : AttributeEntry) : AttributeEntry :=
  { a with slot := 0 }

def MethodEntry.unslotted (m : MethodEntry) : MethodEntry :=
  { m with slot := 0 }

def ClassMembers.unslotted (own : ClassMembers) : ClassMembers :=
  ⟨own.cls, own.attributes.map (·.unslotted), own.methods.map (·.unslotted)⟩

theorem ClassMembers.getD_unslotted (own? : Option ClassMembers) (c : Name) :
    (own?.getD { cls := c }).unslotted = (own?.map (·.unslotted)).getD { cls := c } := by
  cases own? with
  | none => rfl
  | some own => rfl

namespace Members

def Draft.unslotted (draft : Draft) : Draft where
  attributes := draft.attributes.map (·.unslotted)
  methods := draft.methods.map (·.unslotted)
  attributeCount := 0
  methodCount := 0
  reports := draft.reports

namespace Site

def unslotted (site : Site) : Site :=
  { site with parent? := site.parent?.map (·.unslotted) }

variable {site : Site} {draft : Draft}

theorem unslotted_unslotted (site : Site) : site.unslotted.unslotted = site.unslotted := by
  unfold unslotted
  cases site.parent? with
  | none => rfl
  | some p => simp [ClassMembers.unslotted, AttributeEntry.unslotted, MethodEntry.unslotted]

@[simp] theorem parentName_unslotted (site : Site) :
    site.unslotted.parentName = site.parentName := by
  unfold unslotted parentName
  cases site.parent? with
  | none => rfl
  | some p => rfl

@[simp] theorem inheritedAttribute?_unslotted (site : Site) (x : Name) :
    site.unslotted.inheritedAttribute? x =
      (site.inheritedAttribute? x).map (·.unslotted) := by
  unfold unslotted inheritedAttribute?
  cases site.parent? with
  | none => rfl
  | some p => exact List.find?_map

@[simp] theorem inheritedMethod?_unslotted (site : Site) (x : Name) :
    site.unslotted.inheritedMethod? x = (site.inheritedMethod? x).map (·.unslotted) := by
  unfold unslotted inheritedMethod?
  cases site.parent? with
  | none => rfl
  | some p => exact List.find?_map

/-- The parameters of a method depend on the classes only through which there are. -/
theorem parameters_congr (site site' : Site)
    (hhas : ∀ t, site.hierarchy.has t = site'.hierarchy.has t) (accepted : List Parameter)
    (formals : List Formal) :
    site.parameters accepted formals = site'.parameters accepted formals := by
  have hproblem : ∀ accepted f,
      site.formalProblem? accepted f = site'.formalProblem? accepted f := by
    intro accepted f
    rw [formalProblem?, formalProblem?, hhas]
  induction formals generalizing accepted with
  | nil => rfl
  | cons f formals ih => simp only [parameters, hproblem, ih]

/-- So do all features. -/
theorem addFeature_congr {h h' : Hierarchy} (hhas : ∀ t, h.has t = h'.has t) (c : Name)
    (parent? : Option ClassMembers) (draft : Draft) (f : Feature) :
    (⟨h, c, parent?⟩ : Site).addFeature draft f = (⟨h', c, parent?⟩ : Site).addFeature draft f := by
  have htype : ∀ t,
      (⟨h, c, parent?⟩ : Site).typeDefined t = (⟨h', c, parent?⟩ : Site).typeDefined t :=
    fun t => by simp only [typeDefined, hhas]
  cases f with
  | attr a => simp only [addFeature, addAttribute, attributeTypeDefined, htype]; rfl
  | method m =>
      have hparams := parameters_congr ⟨h, c, parent?⟩ ⟨h', c, parent?⟩ hhas [] m.formals
      simp only [addFeature, addMethod, hparams, htype]
      rfl

/-- What a feature adds does not depend on its expression. -/
theorem foldl_addFeature_outline (site : Site) (draft : Draft) (features : List Feature) :
    (features.map (·.outline)).foldl site.addFeature draft =
      features.foldl site.addFeature draft := by
  have hstep : (fun draft f => site.addFeature draft f.outline) = site.addFeature := by
    funext draft f
    cases f with
    | attr a => rfl
    | method m => rfl
  rw [List.foldl_map, hstep]

theorem addAttribute_unslotted (draft : Draft) (a : Attribute) :
    (site.unslotted.addAttribute draft.unslotted a).unslotted =
      (site.addAttribute draft a).unslotted := by
  have hrefusal : site.unslotted.refusal? draft.unslotted a = site.refusal? draft a := by
    simp [refusal?, Draft.unslotted, AttributeEntry.unslotted]
  have htype : site.unslotted.attributeTypeDefined a.type = site.attributeTypeDefined a.type := rfl
  unfold addAttribute
  rw [hrefusal, htype]
  cases site.refusal? draft a with
  | some problem => simp [Draft.unslotted, AttributeEntry.unslotted, MethodEntry.unslotted]
  | none => simp [Draft.unslotted, AttributeEntry.unslotted, MethodEntry.unslotted, unslotted]

theorem override_unslotted (draft : Draft) (m : Method) (params : List Parameter)
    (o : MethodEntry) :
    (site.unslotted.override draft.unslotted m params o.unslotted).unslotted =
      (site.override draft m params o).unslotted := by
  have hmismatches : mismatches m params o.unslotted = mismatches m params o := rfl
  have hparams : o.unslotted.params = o.params := rfl
  unfold override
  rw [hmismatches, hparams]
  dsimp only
  split
  · simp [Draft.unslotted, AttributeEntry.unslotted, MethodEntry.unslotted, unslotted]
  · simp [Draft.unslotted, AttributeEntry.unslotted, MethodEntry.unslotted]

theorem addMethod_unslotted (draft : Draft) (m : Method) :
    (site.unslotted.addMethod draft.unslotted m).unslotted =
      (site.addMethod draft m).unslotted := by
  have hany : draft.unslotted.methods.any (·.name = m.name) =
      draft.methods.any (·.name = m.name) := by
    simp [Draft.unslotted, MethodEntry.unslotted, Function.comp_def]
  have hparams := parameters_congr site.unslotted site (fun _ => rfl) [] m.formals
  have htype : site.unslotted.typeDefined m.result = site.typeDefined m.result := rfl
  unfold addMethod
  rw [hany, hparams, htype]
  dsimp only
  split
  · simp [Draft.unslotted, AttributeEntry.unslotted, MethodEntry.unslotted]
  · split
    · rw [inheritedMethod?_unslotted]
      cases ho : site.inheritedMethod? m.name with
      | none =>
          simp [introduce, Draft.unslotted, AttributeEntry.unslotted, MethodEntry.unslotted,
            unslotted]
      | some o =>
          exact override_unslotted
            { draft with reports := draft.reports ++ (site.parameters [] m.formals).2 } m _ o
    · simp [Draft.unslotted, AttributeEntry.unslotted, MethodEntry.unslotted]

/-- What features make of a draft does not depend on slots. -/
theorem foldl_addFeature_unslotted (site : Site) (draft : Draft) (features : List Feature) :
    (features.foldl site.unslotted.addFeature draft.unslotted).unslotted =
      (features.foldl site.addFeature draft).unslotted := by
  have hstep : ∀ (site : Site) (draft : Draft) (f : Feature),
      (site.unslotted.addFeature draft.unslotted f).unslotted =
        (site.addFeature draft f).unslotted := by
    intro site draft f
    cases f with
    | attr a => exact addAttribute_unslotted draft a
    | method m => exact addMethod_unslotted draft m
  induction features generalizing draft site with
  | nil => simp [Draft.unslotted, AttributeEntry.unslotted, MethodEntry.unslotted]
  | cons f features ih =>
      have hnext := ih site.unslotted (site.unslotted.addFeature draft.unslotted f)
      rw [unslotted_unslotted, hstep] at hnext
      exact hnext.symm.trans (ih site (site.addFeature draft f))

theorem allMethods_unslotted (inherited own : List MethodEntry) :
    allMethods (inherited.map (·.unslotted)) (own.map (·.unslotted)) =
      (allMethods inherited own).map (·.unslotted) := by
  have hintroduced : (own.map (·.unslotted)).filter (·.origin = .introduced) =
      (own.filter (·.origin = .introduced)).map (·.unslotted) := List.filter_map
  simp only [allMethods, hintroduced, List.map_append, List.map_map]
  congr 1
  refine List.map_congr_left fun m _ => ?_
  have hfind : (own.map (·.unslotted)).find? (·.name = m.unslotted.name) =
      (own.find? (·.name = m.name)).map (·.unslotted) := List.find?_map
  simp only [Function.comp, hfind]
  cases own.find? (·.name = m.name) with
  | none => rfl
  | some o => rfl

end Site

/-! ## All classes -/

/-- Members of the same classes that differ in their slots only. -/
structure Alike (ms ms' : Members) : Prop where
  classes : ms.hierarchy.SameClasses ms'.hierarchy
  of? : ∀ c, (ms.of? c).map (·.unslotted) = (ms'.of? c).map (·.unslotted)

section

variable {ms ms' : Members} {c : Name}

theorem siteOf_unslotted (hs : ms.hierarchy.SameClasses ms'.hierarchy)
    (hparent : ∀ p, ms.hierarchy.parent? c = some p →
      (ms.of? p).map (·.unslotted) = (ms'.of? p).map (·.unslotted)) :
    (ms.siteOf c).unslotted = { (ms'.siteOf c).unslotted with hierarchy := ms.hierarchy } := by
  unfold siteOf Site.unslotted
  rw [← hs.parent?]
  cases hp : ms.hierarchy.parent? c with
  | none => rfl
  | some p => simp only [Option.map_some, ClassMembers.getD_unslotted, hparent p hp]

theorem Added.draft_unslotted {reports reports' : List (Report Problem)} {decl decl' : ClassDecl}
    {draft draft' : Draft} (had : Added ms reports c decl draft)
    (had' : Added ms' reports' c decl' draft') (hs : ms.hierarchy.SameClasses ms'.hierarchy)
    (hparent : ∀ p, ms.hierarchy.parent? c = some p →
      (ms.of? p).map (·.unslotted) = (ms'.of? p).map (·.unslotted)) :
    draft.unslotted = draft'.unslotted := by
  obtain ⟨a, k, hdraft⟩ := had.drafted
  obtain ⟨a', k', hdraft'⟩ := had'.drafted
  have hfeatures : decl.features.map (·.outline) = decl'.features.map (·.outline) := by
    have hdecl := hs.decl? c
    rw [had.declared, had'.declared] at hdecl
    exact congrArg ClassDecl.features (Option.some.inj hdecl)
  have hstep : (ms.siteOf c).unslotted.addFeature = (ms'.siteOf c).unslotted.addFeature := by
    rw [siteOf_unslotted hs hparent]
    funext draft f
    exact Site.addFeature_congr hs.has c _ draft f
  rw [hdraft, hdraft', ← Site.foldl_addFeature_unslotted (ms.siteOf c),
    ← Site.foldl_addFeature_unslotted (ms'.siteOf c), hstep, ← Site.foldl_addFeature_outline,
    hfeatures, Site.foldl_addFeature_outline]
  rfl

theorem Added.of?_unslotted {reports reports' : List (Report Problem)} {decl decl' : ClassDecl}
    {draft draft' : Draft} (had : Added ms reports c decl draft)
    (had' : Added ms' reports' c decl' draft') (hs : ms.hierarchy.SameClasses ms'.hierarchy)
    (hparent : ∀ p, ms.hierarchy.parent? c = some p →
      (ms.of? p).map (·.unslotted) = (ms'.of? p).map (·.unslotted)) :
    (ms.of? c).map (·.unslotted) = (ms'.of? c).map (·.unslotted) := by
  have hdraft := had.draft_unslotted had' hs hparent
  have hattributes : draft.attributes.map (·.unslotted) = draft'.attributes.map (·.unslotted) :=
    congrArg Draft.attributes hdraft
  have hmethods : draft.methods.map (·.unslotted) = draft'.methods.map (·.unslotted) :=
    congrArg Draft.methods hdraft
  have hsite := congrArg Site.parent? (siteOf_unslotted hs hparent)
  have hinherited : (ms.inherited c).unslotted = (ms'.inherited c).unslotted := by
    rw [inherited, inherited, ClassMembers.getD_unslotted, ClassMembers.getD_unslotted]
    exact congrArg (Option.getD · _) hsite
  rw [had.of?_eq, had'.of?_eq, Option.map_some, Option.map_some]
  simp only [membersOf, ClassMembers.unslotted, List.map_append, hattributes,
    ← Site.allMethods_unslotted, hmethods]
  have hi := ClassMembers.mk.inj hinherited
  rw [hi.2.1, hi.2.2]

/-- Building the members of the same classes in two orders gives the same members up to slots, and
reports something in both cases or in none. -/
theorem alike_of_build {h h' : Hierarchy} {reports reports' : List (Report Problem)}
    (hr : h.Rooted) (hr' : h'.Rooted) (hb : build h = .ok (ms, reports))
    (hb' : build h' = .ok (ms', reports')) (hs : h.SameClasses h') :
    ms.Alike ms' ∧ (reports = [] → reports' = []) := by
  have ha := adding_of_build hr hb
  have ha' := adding_of_build hr' hb'
  obtain ⟨hh, hclasses, -, hadded, -⟩ := ha
  obtain ⟨hh', hclasses', -, hadded', hsources'⟩ := ha'
  dsimp only at hh hclasses hadded hh' hclasses' hadded' hsources'
  subst hh hh'
  have hmem : ∀ c ∈ ms.hierarchy.names,
      (ms.of? c).map (·.unslotted) = (ms'.of? c).map (·.unslotted) := by
    intro c hc
    refine hr.parent_induction
      (P := fun c => (ms.of? c).map (·.unslotted) = (ms'.of? c).map (·.unslotted))
      (fun c hc ih => ?_) hc
    obtain ⟨decl, draft, had⟩ := hadded c ((Hierarchy.mem_topological hr).mpr hc)
    obtain ⟨decl', draft', had'⟩ :=
      hadded' c ((Hierarchy.mem_topological hr').mpr (hs.mem_names.mp hc))
    exact had.of?_unslotted had' hs ih
  refine ⟨⟨hs, fun c => ?_⟩, fun hnone => ?_⟩
  · by_cases hc : c ∈ ms.hierarchy.names
    · exact hmem c hc
    · have hc' : c ∉ ms'.hierarchy.names := fun hin => hc (hs.mem_names.mpr hin)
      rw [of?_eq_none, of?_eq_none]
      · rwa [hclasses', Hierarchy.mem_topological hr']
      · rwa [hclasses, Hierarchy.mem_topological hr]
  · refine List.eq_nil_iff_forall_not_mem.mpr fun r hin => ?_
    obtain ⟨c, hc, decl', draft', had', hrin⟩ := hsources' r hin
    have hc := hs.mem_names.mpr ((Hierarchy.mem_topological hr').mp hc)
    obtain ⟨decl, draft, had⟩ := hadded c ((Hierarchy.mem_topological hr).mpr hc)
    have hdraft := had.draft_unslotted had' hs fun p hp => hmem p (hr.parent_mem hp)
    have hsame : draft.unslotted.reports = draft'.unslotted.reports := by rw [hdraft]
    dsimp only [Draft.unslotted] at hsame
    rw [← hsame] at hrin
    have hin := had.reported hrin
    rw [hnone] at hin
    cases hin

namespace Alike

variable (ha : ms.Alike ms')

include ha

theorem attributes (c current : Name) :
    (ms.attributes c current).map (·.unslotted) = (ms'.attributes c current).map (·.unslotted) := by
  have hof := ha.of? (resolve c current)
  unfold Members.attributes
  cases hc : ms.of? (resolve c current) <;> cases hc' : ms'.of? (resolve c current) <;>
    simp [hc, hc', ClassMembers.unslotted] at hof ⊢
  exact hof.2.1

theorem methods (c current : Name) :
    (ms.methods c current).map (·.unslotted) = (ms'.methods c current).map (·.unslotted) := by
  have hof := ha.of? (resolve c current)
  unfold Members.methods
  cases hc : ms.of? (resolve c current) <;> cases hc' : ms'.of? (resolve c current) <;>
    simp [hc, hc', ClassMembers.unslotted] at hof ⊢
  exact hof.2.2

theorem method? (c x current : Name) :
    (ms.method? c x current).map (·.unslotted) = (ms'.method? c x current).map (·.unslotted) := by
  have hfind : ∀ methods : List MethodEntry,
      (methods.find? (·.name = x)).map (·.unslotted) =
        (methods.map (·.unslotted)).find? (·.name = x) := by
    intro methods
    rw [List.find?_map]
    rfl
  rw [Members.method?, Members.method?, hfind, hfind, ha.methods]

end Alike

end

end Members

end Cool
