import Cool.Members.Build
import Cool.Proofs.Hierarchy.Order
import Mathlib.Data.List.Forall2

/-! The features of one class. Where nothing is reported, the draft of a class holds exactly one
entry for every feature it declares, and an override repeats the signature it inherits. -/

namespace Cool

/-- The attribute a feature declares. -/
def Feature.attribute? : Feature → Option Attribute
  | .attr a => some a
  | .method _ => none

/-- The method a feature declares. -/
def Feature.method? : Feature → Option Method
  | .attr _ => none
  | .method m => some m

theorem Feature.mem_of_method? {fs : List Feature} {m : Method}
    (hm : m ∈ fs.filterMap Feature.method?) : .method m ∈ fs := by
  obtain ⟨f, hf, hfm⟩ := List.mem_filterMap.mp hm
  cases f with
  | attr a => cases hfm
  | method b =>
      cases hfm
      exact hf

/-- The parameter a formal declares. -/
def Formal.parameter (f : Formal) : Parameter :=
  ⟨f.name, f.type⟩

@[simp] theorem Formal.parameter_name (f : Formal) : f.parameter.name = f.name := rfl

@[simp] theorem Formal.parameter_type (f : Formal) : f.parameter.type = f.type := rfl

namespace Members.Site

variable {site : Site}

/-! ## Reports -/

theorem reports_prefix_override (site : Site) (draft : Draft) (m : Method) (params : List Parameter)
    (overridden : MethodEntry) :
    draft.reports <+: (site.override draft m params overridden).reports := by
  unfold override
  dsimp only
  split
  · exact List.prefix_refl _
  · exact List.prefix_append _ _

/-- A feature only adds to what was reported. -/
theorem reports_prefix_addFeature (draft : Draft) (f : Feature) :
    draft.reports <+: (site.addFeature draft f).reports := by
  cases f with
  | attr a =>
      simp only [addFeature, addAttribute]
      split
      · exact List.prefix_append _ _
      · dsimp only
        split
        · exact List.prefix_refl _
        · exact List.prefix_append _ _
  | method m =>
      simp only [addFeature, addMethod]
      split
      · exact List.prefix_append _ _
      · cases hp : site.parameters [] m.formals with
        | mk params reports =>
            dsimp only
            split
            · split
              · exact List.prefix_append _ _
              · refine List.IsPrefix.trans ?_ (site.reports_prefix_override _ _ _ _)
                exact List.prefix_append _ _
            · rw [List.append_assoc]
              exact List.prefix_append _ _

theorem reports_prefix_foldl (draft : Draft) (features : List Feature) :
    draft.reports <+: (features.foldl site.addFeature draft).reports := by
  induction features generalizing draft with
  | nil => exact List.prefix_refl _
  | cons f features ih => exact (reports_prefix_addFeature draft f).trans (ih _)

/-! ## Parameters -/

theorem formalProblem?_eq_none {accepted : List Parameter} {f : Formal}
    (hf : site.formalProblem? accepted f = none) :
    f.type ∈ site.hierarchy.names ∧ f.name ≠ .self ∧ f.name ∉ accepted.map (·.name) := by
  unfold formalProblem? at hf
  split at hf
  · cases hf
  · split at hf
    · rename_i hhas
      split at hf
      · cases hf
      · rename_i hself
        split at hf
        · cases hf
        · rename_i hdup
          refine ⟨Hierarchy.has_iff.mp hhas, hself, ?_⟩
          simpa using hdup
    · cases hf

/-- Without a report the parameters of a method are its formals, under distinct names. -/
theorem parameters_silent {accepted : List Parameter} {formals : List Formal}
    (hs : (site.parameters accepted formals).2 = []) (hn : (accepted.map (·.name)).Nodup) :
    (site.parameters accepted formals).1 = accepted ++ formals.map Formal.parameter ∧
      ((accepted ++ formals.map Formal.parameter).map (·.name)).Nodup ∧
      ∀ f ∈ formals, f.type ∈ site.hierarchy.names ∧ f.name ≠ .self := by
  induction formals generalizing accepted with
  | nil => simp [parameters, hn]
  | cons f formals ih =>
      rw [parameters] at hs ⊢
      cases hf : site.formalProblem? accepted f with
      | some problem => simp [hf] at hs
      | none =>
          obtain ⟨htype, hself, hnew⟩ := formalProblem?_eq_none hf
          simp only [hf] at hs ⊢
          have hn' : ((accepted ++ [f.parameter]).map (·.name)).Nodup := by
            rw [List.map_append]
            exact List.Nodup.append hn (List.nodup_singleton _) (List.disjoint_singleton.mpr hnew)
          obtain ⟨heq, hnodup, hrest⟩ := ih hs hn'
          refine ⟨by simpa [Formal.parameter] using heq, by simpa using hnodup, ?_⟩
          intro g hg
          rcases List.mem_cons.mp hg with rfl | hg
          · exact ⟨htype, hself⟩
          · exact hrest g hg

theorem formals_silent {formals : List Formal} (hs : (site.parameters [] formals).2 = []) :
    (site.parameters [] formals).1 = formals.map Formal.parameter ∧
      (formals.map (·.name)).Nodup ∧
      ∀ f ∈ formals, f.type ∈ site.hierarchy.names ∧ f.name ≠ .self := by
  obtain ⟨heq, hnodup, hformals⟩ := parameters_silent hs (by simp)
  refine ⟨heq, ?_, hformals⟩
  rwa [List.nil_append, List.map_map] at hnodup

/-! ## Overrides -/

theorem argumentMismatches_eq_nil {i : Nat} {found expected : List Parameter}
    (hlen : found.length = expected.length) (hm : argumentMismatches i found expected = []) :
    found.map (·.type) = expected.map (·.type) := by
  induction found generalizing i expected with
  | nil =>
      rw [List.eq_nil_of_length_eq_zero hlen.symm]
  | cons p found ih =>
      cases expected with
      | nil => cases hlen
      | cons q expected =>
          simp only [argumentMismatches] at hm
          split at hm
          · rename_i heq
            simp [heq, ih (Nat.succ.inj hlen) hm]
          · cases hm

/-- An override without a mismatch repeats the types of the parameters and the result. -/
theorem mismatches_eq_nil {m : Method} {overridden : MethodEntry}
    (hm : mismatches m (m.formals.map Formal.parameter) overridden = []) :
    m.formals.length = overridden.params.length ∧
      (m.formals.map Formal.parameter).map (·.type) = overridden.params.map (·.type) ∧
      m.result = overridden.result := by
  unfold mismatches at hm
  split at hm
  · cases hm
  · rename_i hlen
    have hlen : m.formals.length = overridden.params.length := by simpa using hlen
    obtain ⟨hargs, hresult⟩ := List.append_eq_nil_iff.mp hm
    refine ⟨hlen, argumentMismatches_eq_nil (by simpa using hlen) hargs, ?_⟩
    split at hresult
    · assumption
    · cases hresult

/-- An override about which nothing is reported repeats a signature and takes its slot. -/
theorem override_silent {draft : Draft} {m : Method} {o : MethodEntry}
    (hs : (site.override draft m (m.formals.map Formal.parameter) o).reports = []) :
    (m.formals.map Formal.parameter).map (·.type) = o.params.map (·.type) ∧
      m.result = o.result ∧
      site.override draft m (m.formals.map Formal.parameter) o =
        { draft with
          methods := draft.methods ++ [⟨m.name, m.formals.map Formal.parameter, m.result,
            .overridden, o.slot, o.intro, site.cls, m.span⟩] } := by
  unfold override at hs ⊢
  dsimp only at hs ⊢
  split at hs
  · rename_i hmatch
    obtain ⟨-, htypes, hsame⟩ := mismatches_eq_nil
      (List.isEmpty_iff.mp (Bool.and_eq_true_iff.mp hmatch).1)
    exact ⟨htypes, hsame, if_pos hmatch⟩
  · rename_i hmatch
    have hnone := List.map_eq_nil_iff.mp (List.append_eq_nil_iff.mp hs).2
    obtain ⟨hlen, -⟩ := mismatches_eq_nil hnone
    exact absurd (by simp [hnone, hlen]) hmatch

/-! ## What a draft holds -/

/-- The entry of an attribute that a class declares. -/
structure Owns (site : Site) (a : Attribute) (e : AttributeEntry) : Prop where
  name : e.name = a.name
  type : e.type = a.type
  owner : e.owner = site.cls
  not_self : a.name ≠ .self
  not_inherited : site.inheritedAttribute? a.name = none
  typed : site.attributeTypeDefined a.type = true

/-- The entry of a method that a class declares. -/
structure Declares (site : Site) (m : Method) (e : MethodEntry) : Prop where
  name : e.name = m.name
  params : e.params = m.formals.map Formal.parameter
  result : e.result = m.result
  definer : e.definer = site.cls
  formals_typed : ∀ f ∈ m.formals, f.type ∈ site.hierarchy.names ∧ f.name ≠ .self
  formals_nodup : (m.formals.map (·.name)).Nodup
  result_typed : site.hierarchy.IsType m.result
  introduces : site.inheritedMethod? m.name = none →
    e.origin = .introduced ∧ e.intro = site.cls
  overrides : ∀ o, site.inheritedMethod? m.name = some o →
    e.origin = .overridden ∧ e.intro = o.intro ∧ e.slot = o.slot ∧
      e.params.map (·.type) = o.params.map (·.type) ∧ e.result = o.result

/-- A draft of features that were all accepted. -/
structure Accepted (site : Site) (features : List Feature) (draft : Draft) : Prop where
  attributes : List.Forall₂ site.Owns (features.filterMap Feature.attribute?) draft.attributes
  attributes_nodup : (draft.attributes.map (·.name)).Nodup
  methods : List.Forall₂ site.Declares (features.filterMap Feature.method?) draft.methods
  methods_nodup : (draft.methods.map (·.name)).Nodup

theorem typeDefined_iff {t : Name} : site.typeDefined t = true ↔ site.hierarchy.IsType t := by
  simp [typeDefined, Hierarchy.IsType, Hierarchy.has_iff]

theorem refusal?_eq_none {draft : Draft} {a : Attribute} (hr : site.refusal? draft a = none) :
    site.inheritedAttribute? a.name = none ∧ a.name ≠ .self ∧
      a.name ∉ draft.attributes.map (·.name) := by
  unfold refusal? at hr
  split at hr
  · cases hr
  · rename_i hinherited
    split at hr
    · cases hr
    · rename_i hself
      split at hr
      · cases hr
      · rename_i hdup
        exact ⟨by simpa using hinherited, hself, by simpa using hdup⟩

theorem Accepted.addAttribute {features : List Feature} {draft : Draft} {a : Attribute}
    (hd : site.Accepted features draft) (hs : (site.addAttribute draft a).reports = []) :
    site.Accepted (features ++ [.attr a]) (site.addAttribute draft a) := by
  unfold Site.addAttribute at hs ⊢
  cases hr : site.refusal? draft a with
  | some problem => simp [hr] at hs
  | none =>
      obtain ⟨hinherited, hself, hnew⟩ := refusal?_eq_none hr
      simp only [hr] at hs ⊢
      have htyped : site.attributeTypeDefined a.type = true := by
        by_contra hnot
        simp [hnot] at hs
      refine ⟨?_, ?_, ?_, hd.methods_nodup⟩
      · rw [List.filterMap_append]
        exact List.rel_append hd.attributes
          (.cons ⟨rfl, rfl, rfl, hself, hinherited, htyped⟩ .nil)
      · rw [List.map_append]
        exact List.Nodup.append hd.attributes_nodup (List.nodup_singleton _)
          (List.disjoint_singleton.mpr hnew)
      · rw [List.filterMap_append, show [Feature.attr a].filterMap Feature.method? = [] from rfl,
          List.append_nil]
        exact hd.methods

/-- A method entry that joins a draft under a new name. -/
theorem Accepted.append_method {features : List Feature} {draft draft' : Draft} {m : Method}
    {e : MethodEntry} (hd : site.Accepted features draft) (he : site.Declares m e)
    (hnew : m.name ∉ draft.methods.map (·.name))
    (hattributes : draft'.attributes = draft.attributes)
    (hmethods : draft'.methods = draft.methods ++ [e]) :
    site.Accepted (features ++ [.method m]) draft' := by
  refine ⟨?_, ?_, ?_, ?_⟩
  · rw [hattributes, List.filterMap_append,
      show [Feature.method m].filterMap Feature.attribute? = [] from rfl, List.append_nil]
    exact hd.attributes
  · rw [hattributes]
    exact hd.attributes_nodup
  · rw [hmethods, List.filterMap_append]
    exact List.rel_append hd.methods (.cons he .nil)
  · rw [hmethods, List.map_append]
    exact List.Nodup.append hd.methods_nodup (List.nodup_singleton _)
      (List.disjoint_singleton.mpr fun hmem => hnew (he.name ▸ hmem))

/-- A method about which nothing is reported has a new name and a type that is installed, and all
its formals are parameters. -/
theorem addMethod_silent {draft : Draft} {m : Method}
    (hs : (site.addMethod draft m).reports = []) :
    m.name ∉ draft.methods.map (·.name) ∧ site.hierarchy.IsType m.result ∧
      (site.parameters [] m.formals).2 = [] ∧
      (site.inheritedMethod? m.name = none →
        site.addMethod draft m = site.introduce draft m (m.formals.map Formal.parameter)) ∧
      ∀ o, site.inheritedMethod? m.name = some o →
        site.addMethod draft m = site.override draft m (m.formals.map Formal.parameter) o := by
  unfold addMethod at hs ⊢
  cases hp : site.parameters [] m.formals with
  | mk params reports =>
      simp only [hp] at hs ⊢
      split at hs
      · simp at hs
      · rename_i hdup
        split at hs
        · rename_i hresult
          -- the reports about formals come first, so they are empty in every branch
          have hreports : reports = [] := by
            cases ho : site.inheritedMethod? m.name with
            | none =>
                rw [ho] at hs
                exact (List.append_eq_nil_iff.mp hs).2
            | some o =>
                rw [ho] at hs
                have hpre := hs ▸ site.reports_prefix_override
                  { draft with reports := draft.reports ++ reports } m params o
                exact (List.append_eq_nil_iff.mp (List.prefix_nil.mp hpre)).2
          have hsilent : (site.parameters [] m.formals).2 = [] := by rw [hp, hreports]
          have hparams : params = m.formals.map Formal.parameter := by
            rw [← (formals_silent hsilent).1, hp]
          refine ⟨by simpa using hdup, typeDefined_iff.mp hresult, hreports, fun ho => ?_,
            fun o ho => ?_⟩
          · rw [if_neg hdup, if_pos hresult, ho, hreports, List.append_nil, hparams]
          · rw [if_neg hdup, if_pos hresult, ho, hreports, List.append_nil, hparams]
        · simp at hs

theorem Accepted.addMethod {features : List Feature} {draft : Draft} {m : Method}
    (hd : site.Accepted features draft) (hs : (site.addMethod draft m).reports = []) :
    site.Accepted (features ++ [.method m]) (site.addMethod draft m) := by
  obtain ⟨hnew, hres, hsilent, hintroduce, hoverride⟩ := addMethod_silent hs
  obtain ⟨-, hnodup, hformals⟩ := formals_silent hsilent
  cases ho : site.inheritedMethod? m.name with
  | none =>
      rw [hintroduce ho]
      refine hd.append_method (e := ⟨m.name, m.formals.map Formal.parameter, m.result,
        .introduced, draft.methodCount, site.cls, site.cls, m.span⟩)
        ⟨rfl, rfl, rfl, rfl, hformals, hnodup, hres, fun _ => ⟨rfl, rfl⟩, ?_⟩ hnew rfl rfl
      intro o hsome
      rw [ho] at hsome
      cases hsome
  | some o =>
      rw [hoverride o ho] at hs ⊢
      obtain ⟨htypes, hsame, heq⟩ := override_silent hs
      rw [heq]
      refine hd.append_method ⟨rfl, rfl, rfl, rfl, hformals, hnodup, hres, ?_, ?_⟩ hnew rfl rfl
      · intro hnone
        rw [ho] at hnone
        cases hnone
      · intro o' ho'
        cases ho.symm.trans ho'
        exact ⟨rfl, rfl, rfl, htypes, hsame⟩

theorem exists_left_of_forall₂ {α β : Type} {R : α → β → Prop} {as : List α} {bs : List β}
    (hr : List.Forall₂ R as bs) {b : β} (hb : b ∈ bs) : ∃ a ∈ as, R a b := by
  induction hr with
  | nil => cases hb
  | cons hab _ ih =>
      rcases List.mem_cons.mp hb with rfl | hb
      · exact ⟨_, List.mem_cons_self, hab⟩
      · obtain ⟨a, ha, hab⟩ := ih hb
        exact ⟨a, List.mem_cons_of_mem _ ha, hab⟩

/-- Lists that are related entry by entry show the same of their entries. -/
theorem map_eq_of_forall₂ {α β γ : Type} {R : α → β → Prop} {as : List α} {bs : List β}
    {f : α → γ} {g : β → γ} (hr : List.Forall₂ R as bs) (hfg : ∀ a b, R a b → g b = f a) :
    bs.map g = as.map f := by
  induction hr with
  | nil => rfl
  | cons hab _ ih => rw [List.map_cons, List.map_cons, ih, hfg _ _ hab]

theorem Accepted.owns {features : List Feature} {draft : Draft}
    (hd : site.Accepted features draft) {e : AttributeEntry} (he : e ∈ draft.attributes) :
    ∃ a, Feature.attr a ∈ features ∧ site.Owns a e := by
  obtain ⟨a, ha, howns⟩ := exists_left_of_forall₂ hd.attributes he
  obtain ⟨f, hf, hfa⟩ := List.mem_filterMap.mp ha
  cases f with
  | attr b => exact ⟨b, hf, Option.some.inj hfa ▸ howns⟩
  | method m => cases hfa

theorem Accepted.declares {features : List Feature} {draft : Draft}
    (hd : site.Accepted features draft) {e : MethodEntry} (he : e ∈ draft.methods) :
    ∃ m, Feature.method m ∈ features ∧ site.Declares m e := by
  obtain ⟨m, hm, hdecl⟩ := exists_left_of_forall₂ hd.methods he
  obtain ⟨f, hf, hfm⟩ := List.mem_filterMap.mp hm
  cases f with
  | attr a => cases hfm
  | method m' => exact ⟨m', hf, Option.some.inj hfm ▸ hdecl⟩

theorem Accepted.attribute_of_mem {features : List Feature} {draft : Draft}
    (hd : site.Accepted features draft) {a : Attribute} (ha : Feature.attr a ∈ features) :
    ∃ e ∈ draft.attributes, site.Owns a e :=
  exists_left_of_forall₂ hd.attributes.flip (List.mem_filterMap.mpr ⟨_, ha, rfl⟩)

theorem Accepted.method_of_mem {features : List Feature} {draft : Draft}
    (hd : site.Accepted features draft) {m : Method} (hm : Feature.method m ∈ features) :
    ∃ e ∈ draft.methods, site.Declares m e :=
  exists_left_of_forall₂ hd.methods.flip (List.mem_filterMap.mpr ⟨_, hm, rfl⟩)

/-- The features of a class about which nothing is reported are all accepted. -/
theorem foldl_addFeature_accepted {done features : List Feature} {draft : Draft}
    (hd : site.Accepted done draft)
    (hs : (features.foldl site.addFeature draft).reports = []) :
    site.Accepted (done ++ features) (features.foldl site.addFeature draft) := by
  induction features generalizing done draft with
  | nil => simpa using hd
  | cons f features ih =>
      have hstep : (site.addFeature draft f).reports = [] :=
        List.prefix_nil.mp (hs ▸ reports_prefix_foldl (site.addFeature draft f) features)
      have hnext : site.Accepted (done ++ [f]) (site.addFeature draft f) := by
        cases f with
        | attr a => exact hd.addAttribute hstep
        | method m => exact hd.addMethod hstep
      simpa using ih hnext hs

end Members.Site

end Cool
