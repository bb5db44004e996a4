import Cool.Proofs.Members.Resolution

/-! What a class sees of its ancestors. In coherent members every method goes back to the class that
introduced it, whose signature it repeats, and to the class that declares its body. -/

namespace Cool.Members

variable {ms : Members}

/-! ## The members of one class -/

theorem methods_of {c : Name} {own : ClassMembers} (hof : ms.of? c = some own)
    (hc : c ≠ .selfType) (current : Name) : ms.methods c current = own.methods := by
  simp [methods, resolve, hc, hof]

theorem attributes_of {c : Name} {own : ClassMembers} (hof : ms.of? c = some own)
    (hc : c ≠ .selfType) (current : Name) : ms.attributes c current = own.attributes := by
  simp [attributes, resolve, hc, hof]

namespace Site

variable {site : Site} {features : List Feature} {draft : Draft}

/-- The ways a method comes to be in a class. -/
theorem mem_allMethods {inherited own : List MethodEntry} {m : MethodEntry}
    (hm : m ∈ allMethods inherited own) :
    m ∈ own ∨ ∃ i ∈ inherited, m = { i with origin := .inherited } := by
  rcases List.mem_append.mp hm with hm | hm
  · obtain ⟨i, hi, heq⟩ := List.mem_map.mp hm
    split at heq
    · rename_i o ho
      exact Or.inl (heq ▸ List.mem_of_find?_eq_some ho)
    · exact Or.inr ⟨i, hi, heq.symm⟩
  · exact Or.inl (List.mem_of_mem_filter hm)

theorem allMethods_names (inherited own : List MethodEntry) :
    (allMethods inherited own).map (·.name) =
      inherited.map (·.name) ++ (own.filter (·.origin = .introduced)).map (·.name) := by
  rw [allMethods, List.map_append, List.map_map]
  congr 1
  refine List.map_congr_left fun i _ => ?_
  dsimp only [Function.comp]
  split
  · rename_i o ho
    simpa using List.find?_some ho
  · rfl

/-- A class introduces the methods it declares and does not inherit. -/
theorem Declares.origin_iff {m : Method} {e : MethodEntry} (hd : site.Declares m e) :
    e.origin = .introduced ↔ site.inheritedMethod? m.name = none := by
  cases ho : site.inheritedMethod? m.name with
  | none => simp [(hd.introduces ho).1]
  | some o => simp [(hd.overrides o ho).1]

theorem Accepted.mem_allMethods (hd : site.Accepted features draft) {e : MethodEntry}
    (he : e ∈ draft.methods) {inherited : List MethodEntry}
    (hinherited : ∀ own, site.parent? = some own → own.methods = inherited) :
    e ∈ allMethods inherited draft.methods := by
  obtain ⟨m, -, hdecl⟩ := hd.declares he
  cases ho : site.inheritedMethod? m.name with
  | none =>
      refine List.mem_append_right _ (List.mem_filter.mpr ⟨he, ?_⟩)
      simpa using (hdecl.introduces ho).1
  | some o =>
      obtain ⟨own, hown, hfind⟩ := Option.bind_eq_some_iff.mp ho
      have hname : o.name = m.name := by simpa using List.find?_some hfind
      have hmem : o ∈ inherited := hinherited own hown ▸ List.mem_of_find?_eq_some hfind
      refine List.mem_append_left _ (List.mem_map.mpr ⟨o, hmem, ?_⟩)
      rw [hname, ← hdecl.name, find?_of_nodup_map hd.methods_nodup he]

end Site

/-- A method and the class it is seen from. -/
structure SeenMethod (ms : Members) (c : Name) (m : MethodEntry) : Prop where
  below_definer : ms.hierarchy.Inherits c m.definer
  below_intro : ms.hierarchy.Inherits m.definer m.intro
  params_typed : ∀ p ∈ m.params, p.type ∈ ms.hierarchy.names
  result_typed : ms.hierarchy.IsType m.result
  origin_iff : m.origin = .introduced ↔ m.intro = c
  introduced : ∃ i ∈ ms.methods m.intro m.intro, i.name = m.name ∧ i.intro = m.intro ∧
    i.params.map (·.type) = m.params.map (·.type) ∧ i.result = m.result
  declared : ∃ decl d, ms.hierarchy.decl? m.definer = some decl ∧ .method d ∈ decl.features ∧
    d.name = m.name ∧ m.params = d.formals.map Formal.parameter
  defined : ∃ o, { m with origin := o } ∈ ms.methods m.definer m.definer

/-- An attribute and the class it is seen from. -/
structure SeenAttribute (ms : Members) (c : Name) (a : AttributeEntry) : Prop where
  below_owner : ms.hierarchy.Inherits c a.owner
  declared : ∃ decl d, ms.hierarchy.decl? a.owner = some decl ∧ .attr d ∈ decl.features ∧
    (ms.siteOf a.owner).Owns d a

theorem inherited_of_root {c : Name} (hp : ms.hierarchy.parent? c = none) :
    ms.inherited c = { cls := c } := by
  simp [inherited, siteOf, hp]

namespace Coherent

variable (hco : ms.Coherent)

include hco

theorem ne_selfType {c : Name} (hc : c ∈ ms.hierarchy.names) : c ≠ .selfType :=
  fun heq => hco.rooted.selfType_not_mem (heq ▸ hc)

theorem exists_of? {c : Name} (hc : c ∈ ms.hierarchy.names) : ∃ own, ms.of? c = some own := by
  obtain ⟨decl, draft, -, -, hof⟩ := hco.resolved c hc
  exact ⟨_, hof⟩

/-- What a class inherits are the members of its parent. -/
theorem inherited_methods {c p : Name} (hp : ms.hierarchy.parent? c = some p) :
    (ms.inherited c).methods = ms.methods p p := by
  have hmem := hco.rooted.parent_mem hp
  obtain ⟨own, hof⟩ := hco.exists_of? hmem
  simp [inherited, siteOf, hp, hof, methods_of hof (hco.ne_selfType hmem)]

theorem inherited_attributes {c p : Name} (hp : ms.hierarchy.parent? c = some p) :
    (ms.inherited c).attributes = ms.attributes p p := by
  have hmem := hco.rooted.parent_mem hp
  obtain ⟨own, hof⟩ := hco.exists_of? hmem
  simp [inherited, siteOf, hp, hof, attributes_of hof (hco.ne_selfType hmem)]

theorem inheritedMethod?_eq {c p : Name} (hp : ms.hierarchy.parent? c = some p) (x : Name) :
    (ms.siteOf c).inheritedMethod? x = (ms.methods p p).find? (·.name = x) := by
  rw [← hco.inherited_methods hp]
  simp [inherited, Site.inheritedMethod?, siteOf, hp]

theorem inheritedAttribute?_eq {c p : Name} (hp : ms.hierarchy.parent? c = some p) (x : Name) :
    (ms.siteOf c).inheritedAttribute? x = (ms.attributes p p).find? (·.name = x) := by
  rw [← hco.inherited_attributes hp]
  simp [inherited, Site.inheritedAttribute?, siteOf, hp]

theorem mem_of_inheritedMethod? {c x : Name} {o : MethodEntry}
    (ho : (ms.siteOf c).inheritedMethod? x = some o) :
    ∃ p, ms.hierarchy.parent? c = some p ∧ o ∈ ms.methods p p ∧ o.name = x := by
  cases hp : ms.hierarchy.parent? c with
  | none => simp [Site.inheritedMethod?, siteOf, hp] at ho
  | some p =>
      rw [hco.inheritedMethod?_eq hp] at ho
      exact ⟨p, rfl, List.mem_of_find?_eq_some ho, by simpa using List.find?_some ho⟩

/-- What a class declares is among its methods. -/
theorem mem_methods_of_draft {c : Name} (hc : c ∈ ms.hierarchy.names) {features : List Feature}
    {draft : Draft} (haccepted : (ms.siteOf c).Accepted features draft)
    (hof : ms.of? c = some (ms.membersOf c draft)) {e : MethodEntry} (he : e ∈ draft.methods) :
    e ∈ ms.methods c c := by
  rw [methods_of hof (hco.ne_selfType hc)]
  refine haccepted.mem_allMethods he fun own hown => ?_
  rw [inherited, hown]
  rfl

/-- The entry of a method that the class declares itself. -/
theorem seenMethod_of_declares {c : Name} {decl : ClassDecl}
    (hdecl : ms.hierarchy.decl? c = some decl) {d : Method} (hd : .method d ∈ decl.features)
    {e : MethodEntry} (he : e ∈ ms.methods c c) (hdeclares : (ms.siteOf c).Declares d e)
    (ih : ∀ p, ms.hierarchy.parent? c = some p → ∀ m ∈ ms.methods p p, ms.SeenMethod p m) :
    ms.SeenMethod c e := by
  have hdefiner : e.definer = c := hdeclares.definer
  have hdefined : { e with origin := e.origin } ∈ ms.methods e.definer e.definer :=
    hdefiner ▸ he
  have hparams : ∀ p ∈ e.params, p.type ∈ ms.hierarchy.names := by
    rw [hdeclares.params]
    intro p hp
    obtain ⟨f, hf, rfl⟩ := List.mem_map.mp hp
    exact (hdeclares.formals_typed f hf).1
  have hresult : ms.hierarchy.IsType e.result := hdeclares.result ▸ hdeclares.result_typed
  have hdeclared : ∃ decl d, ms.hierarchy.decl? e.definer = some decl ∧
      .method d ∈ decl.features ∧ d.name = e.name ∧ e.params = d.formals.map Formal.parameter :=
    ⟨decl, d, hdefiner ▸ hdecl, hd, hdeclares.name.symm, hdeclares.params⟩
  cases ho : (ms.siteOf c).inheritedMethod? d.name with
  | none =>
      obtain ⟨horigin, hintro⟩ := hdeclares.introduces ho
      have hintro : e.intro = c := hintro
      refine ⟨?_, ?_, hparams, hresult, ?_, ⟨e, ?_, rfl, rfl, rfl, rfl⟩, hdeclared, ⟨_, hdefined⟩⟩
      · rw [hdefiner]
        exact .refl c
      · rw [hdefiner, hintro]
        exact .refl c
      · simp [horigin, hintro]
      · rw [hintro]
        exact he
  | some o =>
      obtain ⟨p, hp, hmem, hname⟩ := hco.mem_of_inheritedMethod? ho
      have hseen := ih p hp o hmem
      have hpo := hseen.below_definer.trans hseen.below_intro
      obtain ⟨horigin, hintro, -, htypes, hsame⟩ := hdeclares.overrides o ho
      obtain ⟨i, hi, hiname, hiintro, hiparams, hiresult⟩ := hseen.introduced
      refine ⟨?_, ?_, hparams, hresult, ?_, ⟨i, ?_, ?_, ?_, ?_, ?_⟩, hdeclared, ⟨_, hdefined⟩⟩
      · rw [hdefiner]
        exact .refl c
      · rw [hdefiner, hintro]
        exact .of_parent hp hpo
      · rw [horigin, hintro]
        refine ⟨nofun, fun heq => ?_⟩
        exact absurd (heq ▸ hpo) (Hierarchy.not_inherits_of_parent hco.rooted hp)
      · rw [hintro]
        exact hi
      · rw [hiname, hname, hdeclares.name]
      · rw [hiintro, hintro]
      · rw [hiparams, htypes]
      · rw [hiresult, hsame]

/-- Every method a class sees goes back to its introduction and to its body. -/
theorem seenMethod {c : Name} (hc : c ∈ ms.hierarchy.names) :
    ∀ m ∈ ms.methods c c, ms.SeenMethod c m := by
  refine hco.rooted.parent_induction (P := fun c => ∀ m ∈ ms.methods c c, ms.SeenMethod c m)
    (fun c hc ih => ?_) hc
  intro m hm
  obtain ⟨decl, draft, hdecl, haccepted, hof⟩ := hco.resolved c hc
  have hmethods := methods_of hof (hco.ne_selfType hc) c
  rcases Site.mem_allMethods (hmethods ▸ hm) with hown | ⟨i, hi, rfl⟩
  · obtain ⟨d, hd, hdeclares⟩ := haccepted.declares hown
    exact hco.seenMethod_of_declares hdecl hd hm hdeclares ih
  · cases hp : ms.hierarchy.parent? c with
    | none => simp [inherited_of_root hp] at hi
    | some p =>
        rw [hco.inherited_methods hp] at hi
        have hseen := ih p hp i hi
        have hpi := hseen.below_definer.trans hseen.below_intro
        refine ⟨.of_parent hp hseen.below_definer, hseen.below_intro, hseen.params_typed,
          hseen.result_typed, ⟨nofun, fun heq => ?_⟩, hseen.introduced,
          hseen.declared, hseen.defined⟩
        dsimp only at heq
        exact absurd (heq ▸ hpi) (Hierarchy.not_inherits_of_parent hco.rooted hp)

theorem methods_nodup {c : Name} (hc : c ∈ ms.hierarchy.names) :
    ((ms.methods c c).map (·.name)).Nodup := by
  refine hco.rooted.parent_induction (P := fun c => ((ms.methods c c).map (·.name)).Nodup)
    (fun c hc ih => ?_) hc
  obtain ⟨decl, draft, -, haccepted, hof⟩ := hco.resolved c hc
  rw [methods_of hof (hco.ne_selfType hc), membersOf, Site.allMethods_names]
  have hown : ((draft.methods.filter (·.origin = .introduced)).map (·.name)).Nodup :=
    haccepted.methods_nodup.sublist (List.filter_sublist.map _)
  cases hp : ms.hierarchy.parent? c with
  | none => simpa [inherited_of_root hp] using hown
  | some p =>
      rw [hco.inherited_methods hp]
      refine List.Nodup.append (ih p hp) hown fun x hinherited hintroduced => ?_
      obtain ⟨e, he, rfl⟩ := List.mem_map.mp hintroduced
      obtain ⟨i, hi, hname⟩ := List.mem_map.mp hinherited
      obtain ⟨hemem, horigin⟩ := List.mem_filter.mp he
      obtain ⟨d, -, hdeclares⟩ := haccepted.declares hemem
      have hnone := hdeclares.origin_iff.mp (of_decide_eq_true horigin)
      rw [hco.inheritedMethod?_eq hp, List.find?_eq_none] at hnone
      exact hnone i hi (by simp [hname, hdeclares.name])

/-- The methods a class declares itself. -/
theorem declared_method {c : Name} (hc : c ∈ ms.hierarchy.names) {decl : ClassDecl}
    (hdecl : ms.hierarchy.decl? c = some decl) {d : Method} (hd : .method d ∈ decl.features) :
    ∃ e ∈ ms.methods c c, (ms.siteOf c).Declares d e := by
  obtain ⟨decl', draft, hdecl', haccepted, hof⟩ := hco.resolved c hc
  cases hdecl.symm.trans hdecl'
  obtain ⟨e, he, hdeclares⟩ := haccepted.method_of_mem hd
  exact ⟨e, hco.mem_methods_of_draft hc haccepted hof he, hdeclares⟩

/-! ## Attributes -/

theorem attributes_eq {c : Name} {draft : Draft} (hc : c ∈ ms.hierarchy.names)
    (hof : ms.of? c = some (ms.membersOf c draft)) :
    ms.attributes c c = (ms.inherited c).attributes ++ draft.attributes :=
  attributes_of hof (hco.ne_selfType hc) c

theorem attributes_nodup {c : Name} (hc : c ∈ ms.hierarchy.names) :
    ((ms.attributes c c).map (·.name)).Nodup := by
  refine hco.rooted.parent_induction (P := fun c => ((ms.attributes c c).map (·.name)).Nodup)
    (fun c hc ih => ?_) hc
  obtain ⟨decl, draft, -, haccepted, hof⟩ := hco.resolved c hc
  rw [hco.attributes_eq hc hof, List.map_append]
  cases hp : ms.hierarchy.parent? c with
  | none => simpa [inherited_of_root hp] using haccepted.attributes_nodup
  | some p =>
      rw [hco.inherited_attributes hp]
      refine List.Nodup.append (ih p hp) haccepted.attributes_nodup fun x hinherited hown => ?_
      obtain ⟨e, he, rfl⟩ := List.mem_map.mp hown
      obtain ⟨i, hi, hname⟩ := List.mem_map.mp hinherited
      obtain ⟨a, -, howns⟩ := haccepted.owns he
      have hnone := howns.not_inherited
      rw [hco.inheritedAttribute?_eq hp, List.find?_eq_none] at hnone
      exact hnone i hi (by simp [hname, howns.name])

theorem seenAttribute {c : Name} (hc : c ∈ ms.hierarchy.names) :
    ∀ a ∈ ms.attributes c c, ms.SeenAttribute c a := by
  refine hco.rooted.parent_induction (P := fun c => ∀ a ∈ ms.attributes c c, ms.SeenAttribute c a)
    (fun c hc ih => ?_) hc
  intro a ha
  obtain ⟨decl, draft, hdecl, haccepted, hof⟩ := hco.resolved c hc
  rw [hco.attributes_eq hc hof] at ha
  rcases List.mem_append.mp ha with ha | ha
  · cases hp : ms.hierarchy.parent? c with
    | none => simp [inherited_of_root hp] at ha
    | some p =>
        rw [hco.inherited_attributes hp] at ha
        have hseen := ih p hp a ha
        exact ⟨.of_parent hp hseen.below_owner, hseen.declared⟩
  · obtain ⟨d, hd, howns⟩ := haccepted.owns ha
    have howner : a.owner = c := howns.owner
    rw [← howner] at hdecl howns
    refine ⟨?_, decl, d, hdecl, hd, howns⟩
    rw [howner]
    exact .refl c

/-- The attributes a class declares itself. -/
theorem declared_attribute {c : Name} (hc : c ∈ ms.hierarchy.names) {decl : ClassDecl}
    (hdecl : ms.hierarchy.decl? c = some decl) {d : Attribute} (hd : .attr d ∈ decl.features) :
    ∃ a ∈ ms.attributes c c, (ms.siteOf c).Owns d a := by
  obtain ⟨decl', draft, hdecl', haccepted, hof⟩ := hco.resolved c hc
  cases hdecl.symm.trans hdecl'
  obtain ⟨a, ha, howns⟩ := haccepted.attribute_of_mem hd
  exact ⟨a, hco.attributes_eq hc hof ▸ List.mem_append_right _ ha, howns⟩

/-- The methods of a type are those of the class it stands for. -/
theorem methods_resolve {t current : Name} (hmem : resolve t current ∈ ms.hierarchy.names) :
    ms.methods t current = ms.methods (resolve t current) (resolve t current) := by
  have hself : resolve (resolve t current) (resolve t current) = resolve t current :=
    if_neg (hco.ne_selfType hmem)
  rw [methods, methods, hself]

theorem method?_of_mem {c : Name} (hc : c ∈ ms.hierarchy.names) {m : MethodEntry}
    (hm : m ∈ ms.methods c c) (current : Name) : ms.method? c m.name current = some m := by
  obtain ⟨own, hof⟩ := hco.exists_of? hc
  have hself := hco.ne_selfType hc
  rw [method?, methods_of hof hself, ← methods_of hof hself c]
  exact find?_of_nodup_map (hco.methods_nodup hc) hm

theorem attribute?_of_mem {c : Name} (hc : c ∈ ms.hierarchy.names) {a : AttributeEntry}
    (ha : a ∈ ms.attributes c c) (current : Name) : ms.attribute? c a.name current = some a := by
  obtain ⟨own, hof⟩ := hco.exists_of? hc
  have hself := hco.ne_selfType hc
  rw [attribute?, attributes_of hof hself, ← attributes_of hof hself c]
  exact find?_of_nodup_map (hco.attributes_nodup hc) ha

/-- A class has one method of a name. -/
theorem method_unique {c : Name} (hc : c ∈ ms.hierarchy.names) {m m' : MethodEntry}
    (hm : m ∈ ms.methods c c) (hm' : m' ∈ ms.methods c c) (hname : m.name = m'.name) : m = m' :=
  List.inj_on_of_nodup_map (hco.methods_nodup hc) hm hm' hname

/-- A class has one attribute of a name. -/
theorem attribute_unique {c : Name} (hc : c ∈ ms.hierarchy.names) {a a' : AttributeEntry}
    (ha : a ∈ ms.attributes c c) (ha' : a' ∈ ms.attributes c c) (hname : a.name = a'.name) :
    a = a' :=
  List.inj_on_of_nodup_map (hco.attributes_nodup hc) ha ha' hname

end Coherent

end Cool.Members
