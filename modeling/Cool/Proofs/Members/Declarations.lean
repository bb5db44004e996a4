import Cool.Proofs.Hierarchy.Cycles
import Cool.Proofs.Members.Nearest

/-! Which features are reported. The features of a class are compared with the members of its parent
only; where nothing is reported these are what the ancestors declare, so the rules hold along the
whole chain of ancestors, and where the rules hold nothing is reported. -/

namespace Cool

/-! ## The rules -/

namespace Hierarchy

/-- Whether a class declares a feature. -/
def Declares (h : Hierarchy) (c : Name) (f : Feature) : Prop :=
  ∃ decl, h.decl? c = some decl ∧ f ∈ decl.features

/-- Whether a class is a proper ancestor of another: its parent, or an ancestor of its parent. -/
def IsAbove (h : Hierarchy) (q c : Name) : Prop :=
  ∃ p, h.parent? c = some p ∧ h.Inherits p q

end Hierarchy

namespace Members

/-- A method that may stand in a class below given ones. What a proper ancestor declares under its
name has the same signature. -/
structure MethodFits (h : Hierarchy) (c : Name) (m : Method) : Prop where
  formals_typed : ∀ f ∈ m.formals, f.type ∈ h.names ∧ f.type ≠ .selfType
  formals_named : ∀ f ∈ m.formals, f.name ≠ .self
  formals_nodup : (m.formals.map (·.name)).Nodup
  result_typed : h.IsType m.result
  repeats : ∀ q o, h.IsAbove q c → h.Declares q (.method o) → o.name = m.name →
    m.formals.length = o.formals.length ∧ m.formals.map (·.type) = o.formals.map (·.type) ∧
      m.result = o.result

/-- The rules for the features of a class, apart from the types of its attributes. -/
structure Consistent (h : Hierarchy) (c : ClassDecl) : Prop where
  attributes_named : ∀ a, .attr a ∈ c.features → a.name ≠ .self
  attributes_nodup : ((c.features.filterMap Feature.attribute?).map (·.name)).Nodup
  attributes_new : ∀ a q b, .attr a ∈ c.features → h.IsAbove q c.name →
    h.Declares q (.attr b) → b.name ≠ a.name
  methods_nodup : ((c.features.filterMap Feature.method?).map (·.name)).Nodup
  methods_fit : ∀ m, .method m ∈ c.features → MethodFits h c.name m

/-- The rules for the features of a class of a program. -/
structure Sound (h : Hierarchy) (c : ClassDecl) : Prop extends Consistent h c where
  attributes_typed : ∀ a, .attr a ∈ c.features → h.IsType a.type

/-! ## Features that fit are not reported -/

namespace Site

variable {site : Site}

/-- A feature that goes with what its class inherits. -/
inductive Admits (site : Site) : Feature → Prop where
  | attr {a : Attribute} : a.name ≠ .self → site.inheritedAttribute? a.name = none →
      site.attributeTypeDefined a.type = true → Admits site (.attr a)
  | method {m : Method} : (∀ f ∈ m.formals, f.type ∈ site.hierarchy.names ∧ f.type ≠ .selfType) →
      (∀ f ∈ m.formals, f.name ≠ .self) → (m.formals.map (·.name)).Nodup →
      site.hierarchy.IsType m.result →
      (∀ o, site.inheritedMethod? m.name = some o →
        m.formals.map (·.type) = o.params.map (·.type) ∧ m.result = o.result) →
      Admits site (.method m)

theorem parameters_of_fits {accepted : List Parameter} {formals : List Formal}
    (htyped : ∀ f ∈ formals, f.type ∈ site.hierarchy.names ∧ f.type ≠ .selfType)
    (hnamed : ∀ f ∈ formals, f.name ≠ .self)
    (hnodup : (accepted.map (·.name) ++ formals.map (·.name)).Nodup) :
    site.parameters accepted formals = (accepted ++ formals.map Formal.parameter, []) := by
  induction formals generalizing accepted with
  | nil => simp [parameters]
  | cons f formals ih =>
      obtain ⟨⟨htype, hself⟩, htyped⟩ := List.forall_mem_cons.mp htyped
      obtain ⟨hname, hnamed⟩ := List.forall_mem_cons.mp hnamed
      have hnew : f.name ∉ accepted.map (·.name) := fun hin =>
        (List.nodup_append.mp hnodup).2.2 _ hin _ List.mem_cons_self rfl
      have hnone : site.formalProblem? accepted f = none := by
        have hany : accepted.any (·.name = f.name) = false := by simpa using hnew
        simp [formalProblem?, hself, Hierarchy.has_iff.mpr htype, hname, hany]
      have hrest : site.parameters (accepted ++ [⟨f.name, f.type⟩]) formals =
          (accepted ++ [⟨f.name, f.type⟩] ++ formals.map Formal.parameter, []) :=
        ih htyped hnamed (by simpa using hnodup)
      rw [parameters, hnone]
      dsimp only
      rw [hrest, List.append_assoc]
      rfl

theorem argumentMismatches_of_eq {found expected : List Parameter}
    (heq : found.map (·.type) = expected.map (·.type)) (i : Nat) :
    argumentMismatches i found expected = [] := by
  induction found generalizing i expected with
  | nil => cases expected <;> rfl
  | cons p found ih =>
      cases expected with
      | nil => rfl
      | cons q expected =>
          obtain ⟨htype, hrest⟩ := List.cons.inj heq
          simp [argumentMismatches, htype, ih hrest]

theorem reports_override {draft : Draft} {m : Method} {o : MethodEntry}
    (htypes : m.formals.map (·.type) = o.params.map (·.type)) (hresult : m.result = o.result) :
    (site.override draft m (m.formals.map Formal.parameter) o).reports = draft.reports := by
  have hlen : m.formals.length = o.params.length := by
    simpa using congrArg List.length htypes
  have hargs : argumentMismatches 0 (m.formals.map Formal.parameter) o.params = [] := by
    refine argumentMismatches_of_eq ?_ 0
    rw [List.map_map]
    exact htypes
  have hnone : mismatches m (m.formals.map Formal.parameter) o = [] := by
    simp [mismatches, hlen, hargs, hresult]
  simp [override, hnone, hlen]

/-- A feature that is admitted under a name of its own is not reported. -/
theorem reports_addFeature {done : List Feature} {draft : Draft} (hd : site.Accepted done draft)
    {f : Feature} (hf : site.Admits f)
    (hattributes : (((done ++ [f]).filterMap Feature.attribute?).map (·.name)).Nodup)
    (hmethods : (((done ++ [f]).filterMap Feature.method?).map (·.name)).Nodup) :
    (site.addFeature draft f).reports = draft.reports := by
  rw [List.filterMap_append, List.map_append] at hattributes hmethods
  cases hf with
  | @attr a hself hinherited htyped =>
      have hnew : draft.attributes.any (·.name = a.name) = false := by
        have hsame := map_eq_of_forall₂ (f := (·.name)) (g := (·.name)) hd.attributes
          fun _ _ howns => howns.name
        have hnot : a.name ∉ draft.attributes.map (·.name) := fun hin =>
          (List.nodup_append.mp hattributes).2.2 _ (hsame ▸ hin) _ List.mem_cons_self rfl
        simpa using hnot
      have hrefusal : site.refusal? draft a = none := by
        simp [refusal?, hinherited, hself, hnew]
      simp [addFeature, addAttribute, hrefusal, htyped]
  | @method m htyped hnamed hnodup hresult hrepeats =>
      have hnew : draft.methods.any (·.name = m.name) = false := by
        have hsame := map_eq_of_forall₂ (f := (·.name)) (g := (·.name)) hd.methods
          fun _ _ hdeclares => hdeclares.name
        have hnot : m.name ∉ draft.methods.map (·.name) := fun hin =>
          (List.nodup_append.mp hmethods).2.2 _ (hsame ▸ hin) _ List.mem_cons_self rfl
        simpa using hnot
      have hparams : site.parameters [] m.formals = (m.formals.map Formal.parameter, []) :=
        parameters_of_fits htyped hnamed hnodup
      simp only [addFeature, addMethod, hnew, hparams, typeDefined_iff.mpr hresult]
      cases ho : site.inheritedMethod? m.name with
      | none => simp [introduce]
      | some o =>
          obtain ⟨htypes, hsame⟩ := hrepeats o ho
          have hreports : ∀ draft,
              (site.override draft m (m.formals.map Formal.parameter) o).reports = draft.reports :=
            fun draft => reports_override htypes hsame
          simpa using hreports _

theorem accepted_nil (site : Site) (a k : Nat) :
    site.Accepted [] { attributeCount := a, methodCount := k } :=
  ⟨.nil, List.nodup_nil, .nil, List.nodup_nil⟩

/-- Features that are admitted under distinct names are not reported. -/
theorem reports_foldl_addFeature {done features : List Feature} {draft : Draft}
    (hd : site.Accepted done draft) (hnone : draft.reports = [])
    (hfeatures : ∀ f ∈ features, site.Admits f)
    (hattributes : (((done ++ features).filterMap Feature.attribute?).map (·.name)).Nodup)
    (hmethods : (((done ++ features).filterMap Feature.method?).map (·.name)).Nodup) :
    (features.foldl site.addFeature draft).reports = [] := by
  induction features generalizing done draft with
  | nil => exact hnone
  | cons f features ih =>
      obtain ⟨hf, hfeatures⟩ := List.forall_mem_cons.mp hfeatures
      have heq : done ++ f :: features = done ++ [f] ++ features := by simp
      rw [heq] at hattributes hmethods
      have hsub : (done ++ [f]).Sublist (done ++ [f] ++ features) := List.sublist_append_left _ _
      have hstep : (site.addFeature draft f).reports = [] :=
        (reports_addFeature hd hf (hattributes.sublist ((hsub.filterMap _).map _))
          (hmethods.sublist ((hsub.filterMap _).map _))).trans hnone
      have haccepted : site.Accepted (done ++ [f]) ([f].foldl site.addFeature draft) :=
        foldl_addFeature_accepted hd hstep
      exact ih haccepted hstep hfeatures hattributes hmethods

end Site

/-! ## Members come from declarations -/

variable {ms : Members}

/-- Every member that a class sees is declared by it or by an ancestor. -/
structure Stems (ms : Members) (c : Name) : Prop where
  attributes : ∀ e ∈ ms.attributes c c, ms.hierarchy.Inherits c e.owner ∧
    ∃ a, ms.hierarchy.Declares e.owner (.attr a) ∧ a.name = e.name ∧ a.type = e.type
  methods : ∀ e ∈ ms.methods c c, ms.hierarchy.Inherits c e.definer ∧
    ∃ m, ms.hierarchy.Declares e.definer (.method m) ∧ m.name = e.name ∧
      e.params = m.formals.map Formal.parameter ∧ e.result = m.result

theorem inheritedAttribute?_siteOf (ms : Members) (c x : Name) :
    (ms.siteOf c).inheritedAttribute? x = (ms.inherited c).attributes.find? (·.name = x) := by
  unfold inherited Site.inheritedAttribute?
  cases (ms.siteOf c).parent? with
  | none => rfl
  | some p => rfl

theorem inherited_of_parent {c p : Name} (hp : ms.hierarchy.parent? c = some p)
    (hself : p ≠ .selfType) :
    (ms.inherited c).attributes = ms.attributes p p ∧
      (ms.inherited c).methods = ms.methods p p := by
  cases hof : ms.of? p with
  | none => simp [inherited, siteOf, hp, hof, attributes, methods, resolve, hself]
  | some own => simp [inherited, siteOf, hp, hof, attributes, methods, resolve, hself]

section

variable (hr : ms.hierarchy.Rooted)

include hr

/-- A class whose features are all accepted adds what it declares itself. -/
theorem stems_of_accepted {c : Name} (hc : c ∈ ms.hierarchy.names) {decl : ClassDecl}
    {draft : Draft} (hdecl : ms.hierarchy.decl? c = some decl)
    (haccepted : (ms.siteOf c).Accepted decl.features draft)
    (hof : ms.of? c = some (ms.membersOf c draft))
    (hparent : ∀ p, ms.hierarchy.parent? c = some p → ms.Stems p) : ms.Stems c := by
  have hself : ∀ {q : Name}, q ∈ ms.hierarchy.names → q ≠ .selfType :=
    fun hq heq => hr.selfType_not_mem (heq ▸ hq)
  refine ⟨fun e he => ?_, fun e he => ?_⟩
  · rw [attributes_of hof (hself hc)] at he
    rcases List.mem_append.mp he with he | he
    · cases hp : ms.hierarchy.parent? c with
      | none => simp [inherited_of_root hp] at he
      | some p =>
          rw [(inherited_of_parent hp (hself (hr.parent_mem hp))).1] at he
          obtain ⟨habove, hdeclared⟩ := (hparent p hp).attributes e he
          exact ⟨.of_parent hp habove, hdeclared⟩
    · obtain ⟨a, ha, howns⟩ := haccepted.owns he
      have howner : e.owner = c := howns.owner
      rw [howner]
      exact ⟨.refl c, a, ⟨decl, hdecl, ha⟩, howns.name.symm, howns.type.symm⟩
  · rw [methods_of hof (hself hc)] at he
    rcases Site.mem_allMethods he with he | ⟨i, hi, rfl⟩
    · obtain ⟨m, hm, hdeclares⟩ := haccepted.declares he
      have hdefiner : e.definer = c := hdeclares.definer
      rw [hdefiner]
      exact ⟨.refl c, m, ⟨decl, hdecl, hm⟩, hdeclares.name.symm, hdeclares.params,
        hdeclares.result⟩
    · cases hp : ms.hierarchy.parent? c with
      | none => simp [inherited_of_root hp] at hi
      | some p =>
          rw [(inherited_of_parent hp (hself (hr.parent_mem hp))).2] at hi
          obtain ⟨habove, hdeclared⟩ := (hparent p hp).methods i hi
          exact ⟨.of_parent hp habove, hdeclared⟩

/-- A consistent class admits its features where the members of its parent are what the ancestors
declare. -/
theorem admits_of_consistent {c : ClassDecl} (hc : Consistent ms.hierarchy c)
    (htyped : ∀ a, .attr a ∈ c.features → (ms.siteOf c.name).attributeTypeDefined a.type = true)
    (hparent : ∀ p, ms.hierarchy.parent? c.name = some p → ms.Stems p) :
    ∀ f ∈ c.features, (ms.siteOf c.name).Admits f := by
  intro f hf
  cases f with
  | attr a =>
      refine .attr (hc.attributes_named a hf) ?_ (htyped a hf)
      rw [inheritedAttribute?_siteOf, List.find?_eq_none]
      intro e he hname
      cases hp : ms.hierarchy.parent? c.name with
      | none => simp [inherited_of_root hp] at he
      | some p =>
          have hself : p ≠ .selfType := fun heq => hr.selfType_not_mem (heq ▸ hr.parent_mem hp)
          rw [(inherited_of_parent hp hself).1] at he
          obtain ⟨habove, b, hdeclared, hbname, -⟩ := (hparent p hp).attributes e he
          exact hc.attributes_new a _ b hf ⟨p, hp, habove⟩ hdeclared
            (hbname.trans (of_decide_eq_true hname))
  | method m =>
      have hm := hc.methods_fit m hf
      refine .method hm.formals_typed hm.formals_named hm.formals_nodup hm.result_typed ?_
      intro o ho
      rw [inheritedMethod?_siteOf] at ho
      have hname : o.name = m.name := by simpa using List.find?_some ho
      have hmem := List.mem_of_find?_eq_some ho
      cases hp : ms.hierarchy.parent? c.name with
      | none => simp [inherited_of_root hp] at hmem
      | some p =>
          have hself : p ≠ .selfType := fun heq => hr.selfType_not_mem (heq ▸ hr.parent_mem hp)
          rw [(inherited_of_parent hp hself).2] at hmem
          obtain ⟨habove, d, hdeclared, hdname, hparams, hresult⟩ := (hparent p hp).methods o hmem
          obtain ⟨-, htypes, hsame⟩ :=
            hm.repeats _ d ⟨p, hp, habove⟩ hdeclared (hdname.trans hname)
          refine ⟨?_, hsame.trans hresult.symm⟩
          rw [htypes, hparams, List.map_map]
          rfl

end

/-! ## Builtin classes -/

theorem builtin_features : ∀ d ∈ Builtin.classes,
    (∀ a ∈ d.features.filterMap Feature.attribute?, a.name ≠ .self ∧
      (a.type = .primSlot ∨ a.type.isBuiltin = true)) ∧
    ((d.features.filterMap Feature.attribute?).map (·.name)).Nodup ∧
    ((d.features.filterMap Feature.method?).map (·.name)).Nodup ∧
    ∀ m ∈ d.features.filterMap Feature.method?,
      (∀ f ∈ m.formals, f.type.isBuiltin = true ∧ f.type ≠ .selfType ∧ f.name ≠ .self) ∧
      (m.formals.map (·.name)).Nodup ∧ (m.result = .selfType ∨ m.result.isBuiltin = true) := by
  decide

/-- The root declares no attribute, and the other builtin classes declare none of its methods. -/
theorem builtin_methods_apart : Builtin.object.features.filterMap Feature.attribute? = [] ∧
    ∀ d ∈ Builtin.classes, d.name ≠ .object →
      ∀ x ∈ (d.features.filterMap Feature.method?).map (·.name),
        x ∉ (Builtin.object.features.filterMap Feature.method?).map (·.name) := by
  refine ⟨rfl, ?_⟩
  decide

section

variable {p : Program} (hvalid : (Hierarchy.build p).1.valid = true)

include hvalid

theorem mem_names_of_builtin {c : Name} (hc : c.isBuiltin = true) :
    c ∈ (Hierarchy.build p).1.names := by
  obtain ⟨d, hd, rfl⟩ := Hierarchy.isBuiltin_iff.mp hc
  rw [Hierarchy.names_build hvalid]
  exact List.mem_map_of_mem (List.mem_append_left _ hd)

/-- The only class above a builtin one is the root. -/
theorem declares_above_builtin {d : ClassDecl} (hd : d ∈ Builtin.classes) {q : Name} {f : Feature}
    (hq : (Hierarchy.build p).1.IsAbove q d.name) (hf : (Hierarchy.build p).1.Declares q f) :
    d.name ≠ .object ∧ f ∈ Builtin.object.features := by
  obtain ⟨r, hparent, habove⟩ := hq
  have hne : d.name ≠ .object := by
    intro heq
    rw [heq, Hierarchy.parent?_object] at hparent
    cases hparent
  refine ⟨hne, ?_⟩
  rw [Hierarchy.parent?_builtin p (Hierarchy.isBuiltin_iff.mpr ⟨d, hd, rfl⟩) hne] at hparent
  cases hparent
  obtain rfl := habove.eq_of_no_parent (Hierarchy.parent?_object _)
  obtain ⟨decl, hdecl, hmem⟩ := hf
  have hobject := Hierarchy.decl?_of_mem hvalid (c := Builtin.object)
    (List.mem_append_left _ List.mem_cons_self)
  cases hdecl.symm.trans hobject
  exact hmem

theorem consistent_builtin {d : ClassDecl} (hd : d ∈ Builtin.classes) :
    Consistent (Hierarchy.build p).1 d := by
  obtain ⟨hattributes, hattributesNodup, hmethodsNodup, hmethods⟩ := builtin_features d hd
  refine ⟨fun a ha => ?_, hattributesNodup, fun a q b _ hq hb => ?_, hmethodsNodup, fun m hm => ?_⟩
  · exact (hattributes a (List.mem_filterMap.mpr ⟨_, ha, rfl⟩)).1
  · have hmem := (declares_above_builtin hvalid hd hq hb).2
    have hnone := List.filterMap_eq_nil_iff.mp builtin_methods_apart.1 _ hmem
    cases hnone
  · have hm' : m ∈ d.features.filterMap Feature.method? := List.mem_filterMap.mpr ⟨_, hm, rfl⟩
    obtain ⟨hformals, hnodup, hresult⟩ := hmethods m hm'
    refine ⟨fun f hf => ?_, fun f hf => (hformals f hf).2.2, hnodup, ?_, fun q o hq ho hname => ?_⟩
    · exact ⟨mem_names_of_builtin hvalid (hformals f hf).1, (hformals f hf).2.1⟩
    · exact hresult.imp_right (mem_names_of_builtin hvalid)
    · obtain ⟨hne, hmem⟩ := declares_above_builtin hvalid hd hq ho
      refine absurd ?_ (builtin_methods_apart.2 d hd hne m.name (List.mem_map_of_mem hm'))
      exact List.mem_map.mpr ⟨o, List.mem_filterMap.mpr ⟨_, hmem, rfl⟩, hname⟩

end

/-! ## What is reported and what is seen -/

/-- A class sees exactly what it and its ancestors declare: every attribute, and of the methods of
one name the one that is declared nearest. -/
structure SeesExactly (ms : Members) (c : Name) : Prop where
  attributes_nodup : ((ms.attributes c c).map (·.name)).Nodup
  attribute_iff : ∀ q x t, (∃ e ∈ ms.attributes c c, e.owner = q ∧ e.name = x ∧ e.type = t) ↔
    ms.hierarchy.Inherits c q ∧ ∃ a, ms.hierarchy.Declares q (.attr a) ∧ a.name = x ∧ a.type = t
  methods_nodup : ((ms.methods c c).map (·.name)).Nodup
  method_iff : ∀ q x params t,
    (∃ e ∈ ms.methods c c, e.definer = q ∧ e.name = x ∧ e.params = params ∧ e.result = t) ↔
      ms.hierarchy.IsNearest c x q ∧ ∃ m, ms.hierarchy.Declares q (.method m) ∧ m.name = x ∧
        params = m.formals.map Formal.parameter ∧ t = m.result

section

variable {h : Hierarchy} {reports : List (Report Problem)}

/-- A class sees the attributes of the classes above it. -/
theorem attributes_prefix_of_inherits (hr : h.Rooted) (hb : build h = .ok (ms, reports))
    {c q : Name} (hcq : h.Inherits c q) : ms.attributes q q <+: ms.attributes c c := by
  induction hcq using Relation.ReflTransGen.head_induction_on with
  | refl => exact List.prefix_refl _
  | head hp _ ih => exact ih.trans (members_of_parent hr hb hp).1

theorem mem_names_of_declares {c : Name} {f : Feature} (hf : h.Declares c f) : c ∈ h.names := by
  obtain ⟨decl, hdecl, -⟩ := hf
  obtain ⟨entry, hentry, -⟩ := Option.map_eq_some_iff.mp hdecl
  exact Hierarchy.has_iff.mp (by rw [Hierarchy.has, hentry]; rfl)

variable (hr : h.Rooted) (hb : build h = .ok (ms, []))

include hr hb

theorem stems_of_build {c : Name} (hc : c ∈ h.names) : ms.Stems c := by
  obtain ⟨hco, rfl⟩ := coherent_of_build hr hb
  refine hr.parent_induction (P := ms.Stems) (fun c hc ih => ?_) hc
  obtain ⟨decl, draft, hdecl, haccepted, hof⟩ := hco.resolved c hc
  exact stems_of_accepted hr hc hdecl haccepted hof ih

/-- The entry of a declared method, as a class sees it from below. -/
theorem exists_method_of_declares {c q : Name} (hcq : h.Inherits c q) {m : Method}
    (hm : h.Declares q (.method m)) :
    ∃ e ∈ ms.methods c c, e.name = m.name ∧
      e.params.map (·.type) = m.formals.map (·.type) ∧ e.result = m.result := by
  obtain ⟨hco, rfl⟩ := coherent_of_build hr hb
  have hq := mem_names_of_declares hm
  obtain ⟨decl, hdecl, hmem⟩ := hm
  obtain ⟨o, ho, hdeclares⟩ := hco.declared_method hq hdecl hmem
  obtain ⟨k, hk⟩ := List.mem_iff_getElem?.mp ho
  obtain ⟨e, he, hinterface⟩ := getElem?_of_inherits hr hb hcq hk
  simp only [MethodEntry.interface, Prod.mk.injEq] at hinterface
  obtain ⟨hname, -, -, hparams, hresult, -⟩ := hinterface
  refine ⟨e, List.mem_of_getElem? he, hname.trans hdeclares.name, ?_,
    hresult.trans hdeclares.result⟩
  rw [hparams, hdeclares.params, List.map_map]
  rfl

theorem exists_attribute_of_declares {c q : Name} (hcq : h.Inherits c q) {a : Attribute}
    (ha : h.Declares q (.attr a)) :
    ∃ e ∈ ms.attributes c c, e.owner = q ∧ e.name = a.name ∧ e.type = a.type := by
  obtain ⟨hco, rfl⟩ := coherent_of_build hr hb
  have hq := mem_names_of_declares ha
  obtain ⟨decl, hdecl, hmem⟩ := ha
  obtain ⟨e, he, howns⟩ := hco.declared_attribute hq hdecl hmem
  exact ⟨e, (attributes_prefix_of_inherits hr hb hcq).subset he, howns.owner, howns.name,
    howns.type⟩

theorem seesExactly_of_build {c : Name} (hc : c ∈ h.names) : ms.SeesExactly c := by
  have hstems := stems_of_build hr hb hc
  obtain ⟨hco, rfl⟩ := coherent_of_build hr hb
  refine ⟨hco.attributes_nodup hc, fun q x t => ⟨?_, ?_⟩, hco.methods_nodup hc,
    fun q x params t => ⟨?_, ?_⟩⟩
  · rintro ⟨e, he, rfl, rfl, rfl⟩
    exact hstems.attributes e he
  · rintro ⟨hcq, a, ha, rfl, rfl⟩
    exact exists_attribute_of_declares hr hb hcq ha
  · rintro ⟨e, he, rfl, rfl, rfl, rfl⟩
    exact ⟨hco.isNearest_definer hc e he, (hstems.methods e he).2⟩
  -- the entry under this name is that of the nearest declaration, and a class has one of each name
  · rintro ⟨hnearest, m, hm, rfl, rfl, rfl⟩
    obtain ⟨e, he, hname, -, -⟩ := exists_method_of_declares hr hb hnearest.above hm
    have hdefiner : e.definer = q :=
      (hname ▸ hco.isNearest_definer hc e he).unique hr hnearest
    obtain ⟨m', hm', hname', hparams, hresult⟩ := (hstems.methods e he).2
    have hq := mem_names_of_declares hm
    rw [hdefiner] at hm'
    obtain ⟨decl, hdecl, hmem⟩ := hm
    obtain ⟨decl', hdecl', hmem'⟩ := hm'
    cases hdecl.symm.trans hdecl'
    obtain ⟨i, hi, hdeclares⟩ := hco.declared_method hq hdecl hmem
    obtain ⟨i', hi', hdeclares'⟩ := hco.declared_method hq hdecl hmem'
    have hsame : i = i' := List.inj_on_of_nodup_map (hco.methods_nodup hq) hi hi'
      (by rw [hdeclares.name, hdeclares'.name, hname', hname])
    subst hsame
    exact ⟨e, he, hdefiner, hname, by rw [hparams, ← hdeclares'.params, hdeclares.params],
      by rw [hresult, ← hdeclares'.result, hdeclares.result]⟩

end

section

variable {p : Program} {reports : List (Report Problem)}

theorem not_builtin_of_mem (hvalid : (Hierarchy.build p).1.valid = true) {c : ClassDecl}
    (hc : c ∈ p.classes) : c.name.isBuiltin = false :=
  ((Hierarchy.wellDeclared_of_valid hvalid).names_free c hc).1

/-- Where nothing is reported the rules hold along the whole chain of ancestors: what an ancestor
declares is seen by the parent, and the features were compared with that. -/
theorem sound_of_silent (hb : build (Hierarchy.build p).1 = .ok (ms, [])) {c : ClassDecl}
    (hc : c ∈ p.classes) : Sound (Hierarchy.build p).1 c := by
  have hv := valid_of_build hb
  have hr := Hierarchy.rooted_of_valid hv
  have hall : c ∈ Builtin.classes ++ p.classes := List.mem_append_right _ hc
  have hdecl := Hierarchy.decl?_of_mem hv hall
  have hbuiltin := not_builtin_of_mem hv hc
  have hcmem : c.name ∈ (Hierarchy.build p).1.names :=
    Hierarchy.names_build hv ▸ List.mem_map_of_mem hall
  obtain ⟨hco, hh⟩ := coherent_of_build hr hb
  rw [← hh] at hdecl hcmem ⊢
  obtain ⟨decl, draft, hdecl', haccepted, hof⟩ := hco.resolved c.name hcmem
  cases hdecl.symm.trans hdecl'
  refine ⟨⟨fun a ha => ?_, ?_, fun a q b ha hq hb' hname => ?_, ?_, fun m hm => ?_⟩, fun a ha => ?_⟩
  · obtain ⟨e, -, howns⟩ := haccepted.attribute_of_mem ha
    exact howns.not_self
  · rw [← Site.map_eq_of_forall₂ (g := (·.name)) haccepted.attributes fun _ _ howns => howns.name]
    exact haccepted.attributes_nodup
  · obtain ⟨r, hparent, habove⟩ := hq
    obtain ⟨e, -, howns⟩ := haccepted.attribute_of_mem ha
    obtain ⟨i, hi, -, hiname, -⟩ := exists_attribute_of_declares hr hb (hh ▸ habove) (hh ▸ hb')
    have hnone := howns.not_inherited
    rw [hco.inheritedAttribute?_eq hparent, List.find?_eq_none] at hnone
    exact hnone i hi (by simp [hiname, hname])
  · rw [← Site.map_eq_of_forall₂ (g := (·.name)) haccepted.methods fun _ _ hdeclares =>
      hdeclares.name]
    exact haccepted.methods_nodup
  · obtain ⟨e, -, hdeclares⟩ := haccepted.method_of_mem hm
    refine ⟨fun f hf => ?_, fun f hf => (hdeclares.formals_typed f hf).2, hdeclares.formals_nodup,
      hdeclares.result_typed, fun q o hq ho hname => ?_⟩
    · have htype := (hdeclares.formals_typed f hf).1
      exact ⟨htype, hco.ne_selfType htype⟩
    · obtain ⟨r, hparent, habove⟩ := hq
      obtain ⟨i, hi, hiname, hitypes, hiresult⟩ :=
        exists_method_of_declares hr hb (hh ▸ habove) (hh ▸ ho)
      have hinherited : (ms.siteOf c.name).inheritedMethod? m.name = some i := by
        rw [hco.inheritedMethod?_eq hparent, ← hname, ← hiname]
        exact find?_of_nodup_map (hco.methods_nodup (hco.rooted.parent_mem hparent)) hi
      obtain ⟨-, -, -, htypes, hsame⟩ := hdeclares.overrides i hinherited
      have hformals : m.formals.map (·.type) = o.formals.map (·.type) := by
        rw [← hitypes, ← htypes, hdeclares.params, List.map_map]
        rfl
      refine ⟨by simpa using congrArg List.length hformals, hformals, ?_⟩
      rw [← hiresult, ← hsame, hdeclares.result]
  · obtain ⟨e, -, howns⟩ := haccepted.attribute_of_mem ha
    have htyped : (ms.siteOf c.name).typeDefined a.type = true := by
      have hknown := howns.typed
      rwa [Site.attributeTypeDefined, show (ms.siteOf c.name).cls = c.name from rfl, hbuiltin,
        Bool.and_false, Bool.false_or] at hknown
    exact Site.typeDefined_iff.mp htyped

/-- The types of attributes that keep to the rules are known. -/
theorem attributeTypeDefined_of_sound (hvalid : (Hierarchy.build p).1.valid = true)
    (hh : ms.hierarchy = (Hierarchy.build p).1)
    (hsound : ∀ c ∈ p.classes, Sound (Hierarchy.build p).1 c) {c : ClassDecl}
    (hc : c ∈ Builtin.classes ++ p.classes) {a : Attribute} (ha : .attr a ∈ c.features) :
    (ms.siteOf c.name).attributeTypeDefined a.type = true := by
  have hdefined : ∀ t, (Hierarchy.build p).1.IsType t → (ms.siteOf c.name).typeDefined t = true :=
    fun t ht => Site.typeDefined_iff.mpr (show ms.hierarchy.IsType t from hh ▸ ht)
  rw [Site.attributeTypeDefined, Bool.or_eq_true, Bool.and_eq_true]
  rcases List.mem_append.mp hc with hc | hc
  · have ha' : a ∈ c.features.filterMap Feature.attribute? := List.mem_filterMap.mpr ⟨_, ha, rfl⟩
    rcases ((builtin_features c hc).1 a ha').2 with hslot | htype
    · exact .inl ⟨decide_eq_true hslot, Hierarchy.isBuiltin_iff.mpr ⟨c, hc, rfl⟩⟩
    · exact .inr (hdefined _ (.inr (mem_names_of_builtin hvalid htype)))
  · exact .inr (hdefined _ ((hsound c hc).attributes_typed a ha))

/-- Where the rules hold nothing is reported. From class to subclass, the members of the parent are
what the ancestors declare, so comparing with them finds nothing. -/
theorem silent_of_sound (hb : build (Hierarchy.build p).1 = .ok (ms, reports))
    (hsound : ∀ c ∈ p.classes, Sound (Hierarchy.build p).1 c) : reports = [] := by
  have hv := valid_of_build hb
  have hr := Hierarchy.rooted_of_valid hv
  obtain ⟨hh, -, -, hadded, hsources⟩ := adding_of_build hr hb
  dsimp only at hh hadded hsources
  have hconsistent : ∀ c ∈ Builtin.classes ++ p.classes, Consistent ms.hierarchy c := by
    rw [hh]
    exact List.forall_mem_append.mpr
      ⟨fun c hc => consistent_builtin hv hc, fun c hc => (hsound c hc).toConsistent⟩
  have hsilent : ∀ c ∈ (Hierarchy.build p).1.names,
      (∀ decl draft, Added ms reports c decl draft → draft.reports = []) ∧ ms.Stems c := by
    intro c hc
    refine hr.parent_induction (P := fun c =>
      (∀ decl draft, Added ms reports c decl draft → draft.reports = []) ∧ ms.Stems c)
      (fun c hc ih => ?_) hc
    have hstems : ∀ q, ms.hierarchy.parent? c = some q → ms.Stems q :=
      fun q hq => (ih q (hh ▸ hq)).2
    have hnone : ∀ decl draft, Added ms reports c decl draft → draft.reports = [] := by
      intro decl draft had
      obtain ⟨a, k, hdraft⟩ := had.drafted
      rw [Hierarchy.names_build hv] at hc
      obtain ⟨d, hd, rfl⟩ := List.mem_map.mp hc
      have hdecl := had.declared
      rw [hh, Hierarchy.decl?_of_mem hv hd] at hdecl
      cases hdecl
      have hadmits := admits_of_consistent (hh ▸ hr) (hconsistent _ hd)
        (fun b hb => attributeTypeDefined_of_sound hv hh hsound hd hb) hstems
      rw [hdraft]
      exact Site.reports_foldl_addFeature (Site.accepted_nil _ a k) rfl hadmits
        (hconsistent _ hd).attributes_nodup (hconsistent _ hd).methods_nodup
    refine ⟨hnone, ?_⟩
    obtain ⟨decl, draft, had⟩ := hadded c ((Hierarchy.mem_topological hr).mpr hc)
    obtain ⟨a, k, hdraft⟩ := had.drafted
    have haccepted : (ms.siteOf c).Accepted decl.features draft := by
      have hreports := hnone decl draft had
      rw [hdraft] at hreports ⊢
      exact Site.foldl_addFeature_accepted (Site.accepted_nil _ a k) hreports
    exact stems_of_accepted (hh ▸ hr) (hh ▸ hc) had.declared haccepted had.of?_eq hstems
  refine List.eq_nil_iff_forall_not_mem.mpr fun r hin => ?_
  obtain ⟨c, hc, decl, draft, had, hrin⟩ := hsources r hin
  rw [(hsilent c ((Hierarchy.mem_topological hr).mp hc)).1 decl draft had] at hrin
  cases hrin

end

/-- In a valid hierarchy the members of every class are resolved, and nothing is reported about them
exactly if the features of every class of the program keep to the rules. Then every class sees
exactly what it and its ancestors declare. -/
theorem features_silent_iff_sound {p : Program} (hvalid : (Hierarchy.build p).1.valid = true) :
    ∃ ms reports, build (Hierarchy.build p).1 = .ok (ms, reports) ∧
      (reports = [] ↔ ∀ c ∈ p.classes, Sound (Hierarchy.build p).1 c) ∧
      (reports = [] → ms.hierarchy = (Hierarchy.build p).1 ∧
        ∀ c ∈ (Hierarchy.build p).1.names, ms.SeesExactly c) := by
  have hr := Hierarchy.rooted_of_valid hvalid
  cases hb : build (Hierarchy.build p).1 with
  | error fault => simp [build, hvalid] at hb
  | ok state =>
      obtain ⟨ms, reports⟩ := state
      refine ⟨ms, reports, rfl, ⟨?_, silent_of_sound hb⟩, ?_⟩
      · rintro rfl c hc
        exact sound_of_silent hb hc
      · rintro rfl
        exact ⟨hierarchy_of_build hr hb, fun c hc => seesExactly_of_build hr hb hc⟩

/-- The tree of classes `C`, `B` and `A` in this order, each below the next. `A` declares an
attribute `x` and a method `f`, and `C` overrides `f`. -/
def distantOverride : Program :=
  let span : Span := ⟨"distant.cl", 1⟩
  let m : Mark := { span }
  ⟨span,
    [⟨span, .named "C", .named "B",
      [.method ⟨span, .named "f", [⟨span, .named "b", .int⟩], .int, .int m "2"⟩]⟩,
    ⟨span, .named "B", .named "A", []⟩,
    ⟨span, .named "A", .anonymous,
      [.attr ⟨span, .named "x", .selfType, .noExpr m⟩,
        .method ⟨span, .named "f", [⟨span, .named "a", .int⟩], .int, .int m "1"⟩]⟩]⟩

/-- Nothing is reported, and `C` sees the attribute of `A` and a method of its own. -/
theorem features_of_distantOverride :
    (Hierarchy.build distantOverride).1.valid = true ∧
      (∀ c ∈ distantOverride.classes, Sound (Hierarchy.build distantOverride).1 c) ∧
      ∃ ms, build (Hierarchy.build distantOverride).1 = .ok (ms, []) ∧
        ms.SeesExactly (.named "C") := by
  have hvalid : (Hierarchy.build distantOverride).1.valid = true := by decide +kernel
  obtain ⟨ms, reports, hb, hiff, hsees⟩ := features_silent_iff_sound hvalid
  have hlength : (build (Hierarchy.build distantOverride).1).map (·.2.length) = .ok 0 := by
    decide +kernel
  rw [hb] at hlength
  have hnone : reports = [] := List.eq_nil_of_length_eq_zero (Except.ok.inj hlength)
  exact ⟨hvalid, hiff.mp hnone, ms, hnone ▸ hb, (hsees hnone).2 _ (by decide +kernel)⟩

end Members

end Cool
