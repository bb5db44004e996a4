import Cool.Proofs.Pipeline.Phases
import Cool.Proofs.Pipeline.Rearrangement
import Cool.Proofs.Pipeline.ValidCode
import Cool.Proofs.Typing.Recovery

/-! A mistake in an accepted program. If a variable is replaced by one that is bound nowhere, then
it is reported where it stands, and nothing around it is reported but, at most, an equality test. -/

namespace Cool

/-- Programs that differ in an expression have the same outline. -/
theorem Place.outline_fill (place : Place) (e e' : Expr) :
    (place.fill e).classes.map (·.outline) = (place.fill e').classes.map (·.outline) := by
  have hfeature : (place.featureWith e).outline = (place.featureWith e').outline := by
    unfold Place.featureWith
    cases place.feature <;> rfl
  simp [Place.fill, Place.classWith, ClassDecl.outline, hfeature]

namespace Pipeline

open Lowering Typing

section

variable {p q : Program} {ms : Members} (h : Analyzed p ms q) (hms : Regular ms)

include h hms

/-- The attributes that a class of the program has are declared in the program. -/
theorem exists_attribute_node {c : Name} (hc : c ∈ ms.hierarchy.names)
    (hprim : c.isPrimitive = false) {a : AttributeEntry} (ha : a ∈ ms.attributes c c) :
    ∃ b : Attribute, .attr b ∈ p.nodes ∧ b.name = a.name := by
  obtain ⟨hbelow, decl, b, hdecl, hb, howns⟩ := h.coherent.seenAttribute hc a ha
  have howner := attribute_owner_not_builtin h hms.parent_object hc hprim ha
  obtain ⟨d, d', hname, hd⟩ := h.own a.owner (hbelow.mem_names h.coherent.rooted hc) howner
  have hsame := hd.declared
  rw [hname, hdecl] at hsame
  cases hsame
  exact ⟨b, mem_program_nodes hd.mem hb List.mem_cons_self, howns.name.symm⟩

section

variable {d d' : ClassDecl} (hd : CheckedClass ms p q d d') {f : Feature} (hf : f ∈ d.features)

include hd hf

/-- What no node of the program binds is not in the scope of a feature either. -/
theorem lookup_featureScope {y : Name} (hself : y ≠ .self)
    (hy : ∀ n ∈ p.nodes, n.bound? ≠ some y) :
    (featureScope (classScope (ms.attributes d.name d.name)) f).lookup y = none := by
  have hreceiver : ∀ b ∈ [(Name.self, Name.selfType)], b.1 ≠ y :=
    List.forall_mem_singleton.mpr hself.symm
  have hclass : (classScope (ms.attributes d.name d.name)).lookup y = none := by
    refine Scope.lookup_enterWith_eq_none (List.forall_mem_append.mpr ⟨?_, hreceiver⟩) rfl
    refine List.forall_mem_map.mpr fun a ha heq => ?_
    obtain ⟨b, hb, hname⟩ :=
      exists_attribute_node h hms hd.name_mem (not_isPrimitive hd.not_builtin) ha
    exact hy _ hb (congrArg some (hname.trans heq))
  cases f with
  | method m =>
      refine Scope.lookup_enterWith_eq_none (List.forall_mem_cons.mpr ⟨hself.symm, ?_⟩) hclass
      refine List.forall_mem_map.mpr fun formal hformal heq => ?_
      have hmem : .formal formal ∈ (Feature.method m).nodes := List.mem_cons_of_mem _
        (List.mem_append_left _ (List.mem_map_of_mem (List.mem_of_mem_filter hformal)))
      exact hy _ (mem_program_nodes hd.mem hf hmem) (congrArg some heq)
  | attr a => exact Scope.lookup_enterWith_eq_none hreceiver hclass

theorem covers_featureScope : (⟨ms, d.name⟩ : Context).Covers
    (featureScope (classScope (ms.attributes d.name d.name)) f).lookup := by
  have hprim := not_isPrimitive hd.not_builtin
  cases f with
  | method m =>
      obtain ⟨e, -, hdeclares⟩ := h.coherent.declared_method hd.name_mem hd.declared hf
      exact covers_methodScope hms hd.name_mem hprim fun f hf => (hdeclares.formals_typed f hf).1
  | attr a => exact covers_initScope hms hd.name_mem hprim

end

theorem attr_isType {d d' : ClassDecl} (hd : CheckedClass ms p q d d') {a : Attribute}
    (ha : .attr a ∈ d.features) : ms.hierarchy.IsType a.type := by
  obtain ⟨e, he, howns⟩ := h.coherent.declared_attribute hd.name_mem hd.declared ha
  have htype := hms.attribute_typed d.name hd.name_mem (not_isPrimitive hd.not_builtin) e he
  rwa [howns.type] at htype

end

section

variable {place : Place} {m : Mark} {x y : Name} {ms : Members} {q : Program}
  (h : Analyzed (place.fill (.object m x)) ms q) (hms : Regular ms)
  (hcomplete : ∀ c ∈ (place.fill (.object m x)).classes, ∀ f ∈ c.features, f.isComplete = true)
  (hself : y ≠ .self) (hy : ∀ n ∈ (place.fill (.object m x)).nodes, n.bound? ≠ some y)

include h hms hcomplete hself hy

/-- The feature that the place is in. -/
theorem stumbles_feature (hcx : (⟨ms, place.className⟩ : Context).Narrowable) {g : Feature}
    (hg : AcceptsFeature ⟨ms, place.className⟩
      (classScope (ms.attributes place.className place.className))
      (place.featureWith (.object m x)) g) :
    Stumbles (checkFeature ⟨ms, place.className⟩
        (classScope (ms.attributes place.className place.className))
        (place.featureWith (.object m y)))
      ⟨m.span, .undefinedVariable y⟩ (innermostTest? place.path) (fun _ => True) := by
  obtain ⟨d', hd⟩ := h.checked _ (place.classWith_mem (.object m x))
  have hf := place.featureWith_mem (.object m x)
  have hthere := Expr.within_isAbsent (e := .object m x) rfl place.path
  have hscope : ∀ e, featureScope (classScope (ms.attributes place.className place.className))
      (place.feature.withExpr e) = featureScope
        (classScope (ms.attributes place.className place.className)) place.feature := by
    intro e
    cases place.feature <;> rfl
  have hpath : ∀ f ∈ place.path, f.bound? ≠ some y := Expr.bound?_ne_of_nodes fun n hn =>
    hy n (mem_program_nodes hd.mem hf (place.feature.mem_nodes_withExpr hn))
  have hlookup := lookup_featureScope h hms hd hf hself hy
  have hcovers := covers_featureScope h hms hd hf
  rw [Place.featureWith, Place.classWith, hscope] at hlookup hcovers
  refine (recovers_within hcx place.path hpath hlookup x).feature hcx hcovers ?_ ?_ hg
  · exact Feature.isComplete_of_withExpr hthere (hcomplete _ hd.mem _ hf)
  · intro a ha
    rw [Place.featureWith, ha, Feature.withExpr] at hf
    have htype := attr_isType h hms hd hf
    exact htype

/-- The class that the place is in. -/
theorem stumbles_class (hcx : (⟨ms, place.className⟩ : Context).Narrowable) :
    Stumbles (checkClass ms (place.classWith (.object m y)))
      ⟨m.span, .undefinedVariable y⟩ (innermostTest? place.path) (fun _ => True) := by
  obtain ⟨d', hd⟩ := h.checked _ (place.classWith_mem (.object m x))
  obtain ⟨own, hof⟩ := h.coherent.exists_of? hd.name_mem
  have hattributes := Members.attributes_of hof (h.coherent.ne_selfType hd.name_mem)
    place.className
  have hof : ms.of? (place.classWith (.object m y)).name = some own := hof
  rw [checkClass, hof]
  dsimp only
  rw [← hattributes]
  have hfeatures := Stumbles.mapM (decides_checkFeature _ _) hd.features fun g hg =>
    stumbles_feature h hms hcomplete hself hy hcx hg
  exact hfeatures.bind fun _ _ => .pure trivial

end

theorem errType_not_mem {p : Program} {ms : Members}
    (hb : Members.build (Hierarchy.build p).1 = .ok (ms, []))
    (herr : ∀ c ∈ p.classes, c.name ≠ .errType) : Name.errType ∉ ms.hierarchy.names := by
  have hv := Members.valid_of_build hb
  rw [Members.hierarchy_of_build (Hierarchy.rooted_of_valid hv) hb, Hierarchy.names_build hv,
    List.map_append, List.mem_append]
  rintro (hmem | hmem)
  · revert hmem
    decide
  · obtain ⟨c, hc, hname⟩ := List.mem_map.mp hmem
    exact herr c hc hname

/-- The analysis of a program that only the check of its types finds fault with. -/
theorem haltedWith_of_checked {p : Program} {ms : Members} {reports : List (Report Problem)}
    (hb : Members.build (Hierarchy.build p).1 = .ok (ms, []))
    (hreports : (checkProgram ms p).reports = reports) (hnone : reports ≠ [])
    (hhalted : (checkProgram ms p).halted = false) :
    HaltedWith (analyze p) .typecheck (reports.map Typing.diagnostic) := by
  subst hreports
  rw [analyze_of_valid (Members.valid_of_build hb), analyzeMembers, hb]
  change HaltedWith (analyzeTypes p ms {} _) _ _
  unfold analyzeTypes
  dsimp only
  rw [if_neg (by simp [hhalted]), if_pos (hasErrors_reports (fun _ => rfl) hnone)]
  exact haltedWith_reports (fun _ => rfl) (.inr (.inr rfl)) (fun _ => rfl) hnone _ _

/-- The variables of an accepted program have places, and one that is replaced by a variable bound
nowhere is reported once, where it stands. Besides it there is at most a complaint about the
innermost equality test around it. -/
theorem mistake_reported_once {p : Program} {ms : Members}
    (ha : (analyze p).verdict = .accepted ms) (herr : ∀ c ∈ p.classes, c.name ≠ .errType)
    (hcomplete : ∀ c ∈ p.classes, ∀ f ∈ c.features, f.isComplete = true) (m : Mark) (x : Name) :
    (.expr (.object m x) ∈ p.nodes ↔ ∃ place : Place, place.fill (.object m x) = p) ∧
      ∀ (place : Place) (y : Name), place.fill (.object m x) = p → y ≠ .self →
        (∀ n ∈ p.nodes, n.bound? ≠ some y) →
        ∃ ms' rest, Members.build (Hierarchy.build (place.fill (.object m y))).1 = .ok (ms', []) ∧
          (checkProgram ms' (place.fill (.object m y))).reports =
            ⟨m.span, .undefinedVariable y⟩ :: rest ∧
          Aftermath (innermostTest? place.path) rest ∧
          HaltedWith (analyze (place.fill (.object m y))) .typecheck
            (Typing.diagnostic ⟨m.span, .undefinedVariable y⟩ :: rest.map Typing.diagnostic) := by
  refine ⟨⟨Program.exists_place, ?_⟩, ?_⟩
  · rintro ⟨place, rfl⟩
    exact place.mem_nodes_fill List.mem_cons_self
  rintro place y rfl hself hy
  have h := analyzed_of_accepted ha
  obtain ⟨hb, hp⟩ := analyze_accepted ha
  obtain ⟨d', hd⟩ := h.checked _ (place.classWith_mem (.object m x))
  have herr := errType_not_mem hb herr
  have hcx := narrowable_of_build hb herr hd.name_mem (not_isPrimitive hd.not_builtin)
  have hms := regular_of_errType_not_mem h herr fun c q hq => hcx.parent_not_primitive hq
  have hclasses := Stumbles.mapM (decides_checkClass ms) hp.classes fun c' _ =>
    stumbles_class h hms hcomplete hself hy hcx
  -- the change is inside an expression, so the members are the same and so is what is checked
  obtain ⟨ms', hb', halike⟩ := members_of_perm (.of_eq (place.outline_fill _ (.object m y))) hb
  rw [funext (checkClass_alike halike)] at hclasses
  obtain ⟨classes, rest, hrun, hrest, -⟩ := hclasses
  have hchecked : checkProgram ms' (place.fill (.object m y)) =
      ⟨⟨place.span, classes⟩, ⟨m.span, .undefinedVariable y⟩ :: rest, false⟩ := by
    have hrun : (place.fill (.object m y)).classes.mapM (checkClass ms') {} = _ := hrun {} rfl
    rw [checkProgram, StateT.run, hrun]
    rfl
  refine ⟨ms', rest, hb', by rw [hchecked], hrest, ?_⟩
  exact haltedWith_of_checked hb' (by rw [hchecked]) (List.cons_ne_nil _ _) (by rw [hchecked])

/-- A node of the tree of
`class Main { a : Object; f() : Bool { ((if true then a else 1) = a) = true }; };`,
which is written on several lines. -/
def comparedMark (line : Int) : Mark where
  span := ⟨"compare.cl", line⟩

/-- The place of the first `a` in that tree. The inner equality test is on the fourth line. -/
def comparedPlace : Place where
  span := (comparedMark 1).span
  classesBefore := []
  classSpan := (comparedMark 1).span
  className := .entryClass
  classParent := .object
  featuresBefore :=
    [.attr ⟨(comparedMark 2).span, .named "a", .object, .noExpr (comparedMark 2)⟩]
  feature := .method ⟨(comparedMark 3).span, .named "f", [], .bool, .missing⟩
  path := [.left (comparedMark 3) .eq (.bool (comparedMark 6) true),
    .left (comparedMark 4) .eq (.object (comparedMark 6) (.named "a")),
    .onTrue (comparedMark 5) (.bool (comparedMark 5) true) (.int (comparedMark 5) "1")]
  featuresAfter := []
  classesAfter := []

theorem mistake_reported_once_compared :
    let p := comparedPlace.fill (.object (comparedMark 5) (.named "a"))
    let p' := comparedPlace.fill (.object (comparedMark 5) (.named "b"))
    ∃ ms ms' t u, (analyze p).verdict = .accepted ms ∧
      Members.build (Hierarchy.build p').1 = .ok (ms', []) ∧
      (checkProgram ms' p').reports =
        [⟨(comparedMark 5).span, .undefinedVariable (.named "b")⟩,
          ⟨(comparedMark 4).span, .equality t u⟩] := by
  intro p p'
  have haccepts : (analyze p).verdict.acceptedWith (fun _ => true) = true := by decide +kernel
  obtain ⟨ms, ha, -⟩ := Verdict.exists_of_acceptedWith haccepts
  obtain ⟨-, honce⟩ :=
    mistake_reported_once ha (by decide) (by decide) (comparedMark 5) (.named "a")
  obtain ⟨ms', rest, hb, hreports, hrest, hhalt⟩ :=
    honce comparedPlace (.named "b") rfl (by decide) (by decide)
  have hcount : (analyze p').diagnostics.length = 3 := by decide +kernel
  rcases hrest with rfl | ⟨span, t, u, hspan, rfl⟩
  · rw [hhalt.diagnostics] at hcount
    cases hcount
  · cases hspan
    exact ⟨ms, ms', t, u, ha, hb, hreports⟩

end Pipeline

end Cool
