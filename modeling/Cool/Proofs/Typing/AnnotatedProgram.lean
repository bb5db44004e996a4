import Cool.Proofs.Typing.Annotation

/-! The types of the expressions of a program that was read from a document. -/

namespace Cool

open Members.Site (exists_left_of_forall₂ map_eq_of_forall₂)

/-! ## Declarations that were read -/

theorem ClassDecl.bare_of_mem {p : Program} (hp : p.bare = p) {c : ClassDecl} (hc : c ∈ p.classes) :
    c.bare = c := by
  have hclasses : p.classes.map ClassDecl.bare = p.classes.map id := by
    rw [List.map_id]
    exact congrArg Program.classes hp
  exact List.map_inj_left.mp hclasses c hc

theorem Feature.bare_of_mem {c : ClassDecl} (hc : c.bare = c) {f : Feature} (hf : f ∈ c.features) :
    f.bare = f := by
  have hfeatures : c.features.map Feature.bare = c.features.map id := by
    rw [List.map_id]
    exact congrArg ClassDecl.features hc
  exact List.map_inj_left.mp hfeatures f hf

theorem Method.formals_spelled {m : Method} (hm : (Feature.method m).bare = .method m) :
    ∀ f ∈ m.formals, f.type ≠ .anonymous := by
  have hformals : m.formals.map Formal.bare = m.formals := by
    injection hm with hm
    exact congrArg Method.formals hm
  intro f hf
  rw [← hformals] at hf
  obtain ⟨f, -, rfl⟩ := List.mem_map.mp hf
  exact Name.spelled_ne _

theorem Feature.avoids_anonymous {f : Feature} (hf : f.bare = f) : f.Avoids .anonymous := by
  cases f with
  | method m =>
      refine ⟨?_, Method.formals_spelled hf⟩
      injection hf with hm
      have hresult : m.result.spelled = m.result := congrArg Method.result hm
      exact hresult ▸ Name.spelled_ne _
  | attr a =>
      injection hf with ha
      have htype : a.type.spelled = a.type := congrArg Attribute.type ha
      exact fun hbad => Name.spelled_ne _ (htype.trans hbad)

instance (bad : Name) : (f : Feature) → Decidable (f.Avoids bad)
  | .method m => inferInstanceAs (Decidable (m.result ≠ bad ∧ ∀ f ∈ m.formals, f.type ≠ bad))
  | .attr a => inferInstanceAs (Decidable (a.type ≠ bad))

namespace Typing

section

variable {p : Program} {ms : Members} {reports : List (Report Members.Problem)} {bad : Name}
  (hb : Members.build (Hierarchy.build p).1 = .ok (ms, reports))

include hb

theorem hierarchy_of_build : ms.hierarchy = (Hierarchy.build p).1 :=
  Members.hierarchy_of_build (Hierarchy.rooted_of_valid (Members.valid_of_build hb)) hb

theorem exists_members {c : ClassDecl} (hc : c ∈ p.classes) : ∃ own, ms.of? c.name = some own := by
  have hv := Members.valid_of_build hb
  have hr := Hierarchy.rooted_of_valid hv
  have hmem : c.name ∈ (Hierarchy.build p).1.topological := by
    rw [Hierarchy.mem_topological hr, Hierarchy.names_build hv]
    exact List.mem_map_of_mem (List.mem_append_right _ hc)
  obtain ⟨decl, draft, hadded⟩ := (Members.adding_of_build hr hb).added _ hmem
  exact ⟨_, hadded.of?_eq⟩

/-- A name that is no class and stands in no declaration of the program never comes up. -/
theorem avoids_of_features (hnames : bad ∉ (Hierarchy.build p).1.names)
    (hspecial : Name.selfType ≠ bad ∧ Name.noType ≠ bad)
    (hbuiltin : ∀ d ∈ Builtin.classes, ∀ f ∈ d.features, f.Avoids bad)
    (hfeatures : ∀ c ∈ p.classes, ∀ f ∈ c.features, f.Avoids bad) (current : Name) :
    (⟨ms, current⟩ : Context).Avoids bad := by
  have hv := Members.valid_of_build hb
  have hh : Context.hierarchy ⟨ms, current⟩ = (Hierarchy.build p).1 := hierarchy_of_build hb
  have hall : ∀ d ∈ Builtin.classes ++ p.classes, ∀ f ∈ d.features, f.Avoids bad :=
    List.forall_mem_append.mpr ⟨hbuiltin, hfeatures⟩
  refine ⟨by rw [hh]; exact Hierarchy.rooted_of_valid hv, by rwa [hh], ?_, hspecial, ?_⟩
  · by_contra hb
    obtain ⟨d, hd, rfl⟩ := Hierarchy.isBuiltin_iff.mp (Bool.not_eq_false _ ▸ hb)
    rw [Hierarchy.names_build hv] at hnames
    exact hnames (List.mem_map_of_mem (List.mem_append_left _ hd))
  · refine Members.avoids_of_build (Hierarchy.rooted_of_valid hv) hb fun c decl hdecl => ?_
    obtain ⟨entry, hentry, rfl⟩ := Option.map_eq_some_iff.mp hdecl
    have hmem := List.mem_of_find?_eq_some hentry
    rw [(Hierarchy.build_eq_nil (Hierarchy.build_eq_nil_iff_valid.mpr hv)).1] at hmem
    obtain ⟨d, hd, rfl⟩ := List.mem_map.mp hmem
    exact hall d hd

end

theorem Context.Avoids.classScope {cx : Context} {bad : Name} (hcx : cx.Avoids bad) {c : Name}
    {own : ClassMembers} (hown : cx.members.of? c = some own) :
    ScopeAvoids (classScope own.attributes) bad := by
  have hempty : ScopeAvoids {} bad := fun x t hx => by cases hx
  refine hempty.enterWith (List.forall_mem_append.mpr ⟨fun b hb => ?_, ?_⟩)
  · obtain ⟨a, ha, rfl⟩ := List.mem_map.mp hb
    exact (hcx.members own (List.mem_of_find?_eq_some hown)).attributes a ha
  · exact List.forall_mem_singleton.mpr hcx.special.1

theorem Context.Avoids.methodScope {cx : Context} {bad : Name} (hcx : cx.Avoids bad)
    {scope : Scope Name Name} (hscope : ScopeAvoids scope bad) {formals : List Formal}
    (hformals : ∀ f ∈ formals, f.type ≠ bad) : ScopeAvoids (methodScope scope formals) bad := by
  refine hscope.enterWith (List.forall_mem_cons.mpr ⟨hcx.special.1, fun b hb => ?_⟩)
  obtain ⟨f, hf, rfl⟩ := List.mem_map.mp hb
  exact hformals f (List.mem_of_mem_filter hf)

theorem Context.Avoids.initScope {cx : Context} {bad : Name} (hcx : cx.Avoids bad)
    {scope : Scope Name Name} (hscope : ScopeAvoids scope bad) :
    ScopeAvoids (scope.enterWith [(.self, .selfType)]) bad :=
  hscope.enterWith (List.forall_mem_singleton.mpr hcx.special.1)

/-! ## Every expression of a program -/

theorem annotates_checkFeature {cx : Context} (hcx : cx.Avoids .anonymous)
    {scope : Scope Name Name} (hscope : ScopeAvoids scope .anonymous) {f : Feature}
    (hbare : f.bare = f) (hwritten : f.isWritten = true) :
    Running (checkFeature cx scope f)
      (fun f' => f'.bare = f ∧ ∀ q ∈ f'.occurrences, Recorded q) := by
  cases f with
  | method m =>
      have hbody : m.body.bare = m.body := by
        injection hbare with hm
        exact congrArg Method.body hm
      have hcheck := annotates_check hcx m.body
        (hcx.methodScope hscope (Method.formals_spelled hbare)) hwritten
      rw [hbody] at hcheck
      rw [checkFeature, checkMethod]
      refine Running.bind (P := fun m' => m'.body.bare = m.body ∧
        (∀ q ∈ m'.body.occurrences false, Recorded q) ∧ m' = { m with body := m'.body }) ?_ ?_
      · refine hcheck.bind fun r hr => (Running.require _ _ _).bind fun _ _ => .pure ?_
        exact ⟨hr.bare.trans hbody, hr.recorded, rfl⟩
      · rintro m' ⟨hm', hrecorded, heq⟩
        refine .pure ⟨?_, hrecorded⟩
        rw [heq, ← hbare]
        simp only [Feature.bare, hm', hbody]
  | attr a =>
      have hinit : a.init.bare = a.init := by
        injection hbare with ha
        exact congrArg Attribute.init ha
      have hcheck := annotates_check hcx a.init (hcx.initScope hscope) hwritten
      rw [hinit] at hcheck
      rw [checkFeature, checkAttribute]
      refine Running.bind (P := fun a' => a'.init.bare = a.init ∧
        (∀ q ∈ a'.init.occurrences false, Recorded q) ∧ a' = { a with init := a'.init }) ?_ ?_
      · refine hcheck.bind fun r hr => (Running.require _ _ _).bind fun _ _ => .pure ?_
        exact ⟨hr.bare.trans hinit, hr.recorded, rfl⟩
      · rintro a' ⟨ha', hrecorded, heq⟩
        refine .pure ⟨?_, hrecorded⟩
        rw [heq, ← hbare]
        simp only [Feature.bare, ha', hinit]

theorem annotates_checkClass {ms : Members} {c : ClassDecl}
    (hcx : (⟨ms, c.name⟩ : Context).Avoids .anonymous) {own : ClassMembers}
    (hown : ms.of? c.name = some own) (hbare : c.bare = c)
    (hwritten : ∀ f ∈ c.features, f.isWritten = true) :
    Running (checkClass ms c) (fun c' => c'.bare = c ∧ ∀ q ∈ c'.occurrences, Recorded q) := by
  rw [checkClass, hown]
  refine (Running.mapM fun f hf => annotates_checkFeature hcx (hcx.classScope hown)
    (Feature.bare_of_mem hbare hf) (hwritten f hf)).bind fun fs hfs => .pure ⟨?_, ?_⟩
  · have hfs : fs.map Feature.bare = c.features := by
      simpa using map_eq_of_forall₂ (f := id) hfs fun _ _ h => h.1
    have hfeatures : c.features.map Feature.bare = c.features := congrArg ClassDecl.features hbare
    calc (⟨c.span, c.name.spelled, c.parent, fs.map Feature.bare⟩ : ClassDecl)
      _ = c.bare := by rw [hfs, ClassDecl.bare, hfeatures]
      _ = c := hbare
  · refine List.forall_mem_flatMap.mpr fun f hf => ?_
    obtain ⟨f₀, -, -, hrecorded⟩ := exists_left_of_forall₂ hfs hf
    exact hrecorded

theorem features_avoid_anonymous {p : Program} (hbare : p.bare = p) :
    ∀ c ∈ p.classes, ∀ f ∈ c.features, f.Avoids .anonymous := fun _ hc _ hf =>
  Feature.avoids_anonymous (Feature.bare_of_mem (ClassDecl.bare_of_mem hbare hc) hf)

/-- Everything in a program that was read has a name. -/
theorem avoids_anonymous {p : Program} {ms : Members} {reports : List (Report Members.Problem)}
    (hb : Members.build (Hierarchy.build p).1 = .ok (ms, reports)) (hbare : p.bare = p)
    (current : Name) : (⟨ms, current⟩ : Context).Avoids .anonymous := by
  refine avoids_of_features hb ?_ (by decide) (by decide) (features_avoid_anonymous hbare) current
  rw [Hierarchy.names_build (Members.valid_of_build hb), List.map_append, List.mem_append, not_or]
  refine ⟨by decide, fun hmem => ?_⟩
  obtain ⟨c, hc, hname⟩ := List.mem_map.mp hmem
  have hspelled : c.name.spelled = c.name :=
    congrArg ClassDecl.name (ClassDecl.bare_of_mem hbare hc)
  exact Name.spelled_ne _ (hspelled.trans hname)

/-- Checking a program that was read annotates all of it but the branches it skips, and changes
nothing else. -/
theorem annotates_checkProgram {p : Program} {ms : Members}
    {reports : List (Report Members.Problem)}
    (hb : Members.build (Hierarchy.build p).1 = .ok (ms, reports)) (hread : p.IsReadable)
    (hbare : p.bare = p) :
    (checkProgram ms p).halted = false ∧ (checkProgram ms p).program.bare = p ∧
      ∀ q ∈ (checkProgram ms p).program.occurrences, Recorded q := by
  have hcx := avoids_anonymous hb hbare
  have hrun : Running (p.classes.mapM (checkClass ms)) (List.Forall₂
      (fun c c' => c'.bare = c ∧ ∀ q ∈ c'.occurrences, Recorded q) p.classes) := by
    refine Running.mapM fun c hc => ?_
    obtain ⟨own, hown⟩ := exists_members hb hc
    exact annotates_checkClass (hcx c.name) hown (ClassDecl.bare_of_mem hbare hc)
      (hread.written c hc)
  obtain ⟨hhalted, hclasses⟩ := hrun {} rfl
  refine ⟨hhalted, ?_, ?_⟩
  · have hcs : ((p.classes.mapM (checkClass ms)).run {}).1.map ClassDecl.bare = p.classes := by
      simpa using map_eq_of_forall₂ (f := id) hclasses fun _ _ h => h.1
    exact congrArg (Program.mk p.span) hcs
  · refine List.forall_mem_flatMap.mpr fun c hc => ?_
    obtain ⟨c₀, -, -, hrecorded⟩ := exists_left_of_forall₂ hclasses hc
    exact hrecorded

theorem AcceptsFeature.avoids {cx : Context} {bad : Name} (hcx : cx.Avoids bad)
    {scope : Scope Name Name} (hscope : ScopeAvoids scope bad) {f f' : Feature}
    (hf : f.Avoids bad) (h : AcceptsFeature cx scope f f') :
    ∀ q ∈ f'.occurrences, q.1.type ≠ bad := by
  cases h with
  | method hbody _ => exact (hbody.avoids hcx (hcx.methodScope hscope hf.2)).2 false
  | attr hinit _ => exact (hinit.avoids hcx (hcx.initScope hscope)).2 false

/-- Where nothing is reported, no expression has a type that never comes up. -/
theorem AcceptsProgram.avoids {p p' : Program} {ms : Members} {bad : Name}
    {reports : List (Report Members.Problem)}
    (hb : Members.build (Hierarchy.build p).1 = .ok (ms, reports))
    (hcx : ∀ c, (⟨ms, c⟩ : Context).Avoids bad)
    (hfeatures : ∀ c ∈ p.classes, ∀ f ∈ c.features, f.Avoids bad) (h : AcceptsProgram ms p p') :
    ∀ q ∈ p'.occurrences, q.1.type ≠ bad := by
  refine List.forall_mem_flatMap.mpr fun c' hc' => ?_
  obtain ⟨c, hc, haccepts⟩ := exists_left_of_forall₂ h.classes hc'
  obtain ⟨own, hown⟩ := exists_members hb hc
  rw [AcceptsClass, hown] at haccepts
  obtain ⟨fs, rfl, hfs⟩ := haccepts
  refine List.forall_mem_flatMap.mpr fun f' hf' => ?_
  obtain ⟨f, hf, haccepts⟩ := exists_left_of_forall₂ hfs hf'
  exact haccepts.avoids (hcx c.name) ((hcx c.name).classScope hown) (hfeatures c hc f hf)

/-- Where no member is reported and no class is named after the type of ill-typed expressions, no
member is declared with that type. -/
theorem features_avoid_errType {p : Program} {ms : Members}
    (hb : Members.build (Hierarchy.build p).1 = .ok (ms, []))
    (herr : Name.errType ∉ (Hierarchy.build p).1.names) :
    ∀ c ∈ p.classes, ∀ f ∈ c.features, f.Avoids .errType := by
  intro c hc f hf
  have hsound := Members.sound_of_silent hb hc
  have htyped : ∀ t, (Hierarchy.build p).1.IsType t → t ≠ .errType := fun t ht =>
    Hierarchy.IsType.ne_errType herr ht
  cases f with
  | method m =>
      have hfits := hsound.methods_fit m hf
      exact ⟨htyped _ hfits.result_typed, fun f hf =>
        htyped _ (Or.inr (hfits.formals_typed f hf).1)⟩
  | attr a => exact htyped _ (hsound.attributes_typed a hf)

/-- Checking a program read from a document runs to its end, whatever was reported about its
members, and leaves exactly those expressions without a type that lie in a branch with the guard of
an earlier one. If nothing is reported then every expression has a type, and none has that of
ill-typed expressions. -/
theorem checked_types_total {text fallback : String} {p : Program}
    (hp : Document.decode text fallback = .ok p) (hvalid : (Hierarchy.build p).1.valid = true)
    (herr : Name.errType ∉ (Hierarchy.build p).1.names) :
    ∃ ms reports, Members.build (Hierarchy.build p).1 = .ok (ms, reports) ∧
      (checkProgram ms p).halted = false ∧ (checkProgram ms p).program.bare = p ∧
      (∀ q ∈ (checkProgram ms p).program.occurrences, q.1.type = .anonymous ↔ q.2 = true) ∧
      (reports = [] → (checkProgram ms p).reports = [] →
        ∀ e, .expr e ∈ (checkProgram ms p).program.nodes →
          e.type ≠ .anonymous ∧ e.type ≠ .errType) := by
  obtain ⟨hread, hbare⟩ := Document.read_decode hp
  obtain ⟨⟨ms, reports⟩, hb⟩ : ∃ r, Members.build (Hierarchy.build p).1 = .ok r := by
    rw [Members.build, if_pos hvalid]
    exact ⟨_, rfl⟩
  obtain ⟨hhalted, hsame, hrecorded⟩ := annotates_checkProgram hb hread hbare
  refine ⟨ms, reports, hb, hhalted, hsame, hrecorded, ?_⟩
  rintro rfl hreports e he
  have haccepts := checkProgram_silent hreports hhalted
  have hmem : e ∈ (checkProgram ms p).program.occurrences.map (·.1) := by
    rw [Program.occurrences_nodes]
    exact List.mem_filterMap.mpr ⟨_, he, rfl⟩
  obtain ⟨q, hq, rfl⟩ := List.mem_map.mp hmem
  have hfeatures := features_avoid_errType hb herr
  have hcx := avoids_of_features hb herr (by decide) (by decide) hfeatures
  exact ⟨haccepts.avoids hb (avoids_anonymous hb hbare) (features_avoid_anonymous hbare) q hq,
    haccepts.avoids hb hcx hfeatures q hq⟩

/-- A class with an attribute `x : Object <- case self of a : Int => a; b : Int => b; esac`. -/
def repeatedGuard : String :=
  "\x7b\"classes\":[\x7b\"name\":\"A\",\"features\":[\x7b\"kind\":\"attr\",\"name\":\"x\"," ++
    "\"type\":\"Object\",\"init\":\x7b\"kind\":\"typcase\",\"expr\":\x7b\"kind\":\"object\"," ++
    "\"name\":\"self\"\x7d,\"branches\":[" ++
    "\x7b\"name\":\"a\",\"type\":\"Int\",\"body\":\x7b\"kind\":\"object\",\"name\":\"a\"\x7d\x7d," ++
    "\x7b\"name\":\"b\",\"type\":\"Int\",\"body\":\x7b\"kind\":\"object\",\"name\":\"b\"\x7d\x7d]" ++
    "\x7d\x7d]\x7d]\x7d"

theorem checked_types_repeatedGuard : ∃ p ms reports, Document.decode repeatedGuard = .ok p ∧
    Members.build (Hierarchy.build p).1 = .ok (ms, reports) ∧
    (checkProgram ms p).program.occurrences.map (fun q => (q.1.type, q.2)) =
      [(.int, false), (.selfType, false), (.int, false), (.anonymous, true)] ∧
    ∀ q ∈ (checkProgram ms p).program.occurrences, q.1.type = .anonymous ↔ q.2 = true := by
  have hreads : (Document.decode repeatedGuard).toOption.any (fun p =>
      (Hierarchy.build p).1.valid && decide (Name.errType ∉ (Hierarchy.build p).1.names) &&
      (Members.build (Hierarchy.build p).1).toOption.any fun r =>
        (checkProgram r.1 p).program.occurrences.map (fun q => (q.1.type, q.2)) =
          [(.int, false), (.selfType, false), (.int, false), (.anonymous, true)]) = true := by
    decide +kernel
  cases hp : Document.decode repeatedGuard with
  | error e =>
      rw [hp] at hreads
      cases hreads
  | ok p =>
      rw [hp, Except.toOption, Option.any_some, Bool.and_eq_true, Bool.and_eq_true] at hreads
      obtain ⟨⟨hvalid, herr⟩, htypes⟩ := hreads
      obtain ⟨ms, reports, hb, -, -, hrecorded, -⟩ :=
        checked_types_total hp hvalid (of_decide_eq_true herr)
      rw [hb, Except.toOption, Option.any_some] at htypes
      exact ⟨p, ms, reports, rfl, hb, of_decide_eq_true htypes, hrecorded⟩

end Typing

end Cool
