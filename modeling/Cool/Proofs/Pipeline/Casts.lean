import Cool.Proofs.Lowering.Casts
import Cool.Proofs.Lowering.Constants
import Cool.Proofs.Lowering.UseTyping
import Cool.Proofs.Pipeline.Recovery

/-! The casts of a module. A value is cast where it is asked at a class that it does not conform to,
and the cast goes down the chain of ancestors of the class that represents its type. -/

namespace Cool

namespace Lowering

open Wat Typing

/-! ## The uses of a program -/

/-- The expressions that the features of a program have. -/
def programUses (ms : Members) (pool : Pool) (p : Program) : List Use :=
  p.classes.flatMap fun d => d.features.flatMap (featureUses (classSite ms pool d.name))

/-- The uses that lowering the features of a program makes of expressions. -/
def Lowered (ms : Members) (pool : Pool) (p : Program) (u : Use) : Prop :=
  ∃ root ∈ programUses ms pool p, root.Asks u

theorem partsClosed_lowered (ms : Members) (pool : Pool) (p : Program) :
    PartsClosed (Lowered ms pool p) := by
  rintro u v ⟨root, hroot, hasks⟩ hv
  exact ⟨root, hroot, hasks.tail hv⟩

theorem lowered_of_declared {ms : Members} {pool : Pool} {p : Program} {c : Name} {f : Feature}
    (hf : f ∈ declaredFeatures p c) {u : Use} (hu : u ∈ featureUses (classSite ms pool c) f) :
    Lowered ms pool p u := by
  unfold declaredFeatures at hf
  split at hf
  · cases hf
  · split at hf
    · rename_i d hd
      have hname : d.name = c := by simpa using List.find?_some hd
      refine ⟨u, List.mem_flatMap.mpr ⟨d, List.mem_of_find?_eq_some hd, ?_⟩, .refl⟩
      exact List.mem_flatMap.mpr ⟨f, hf, by rwa [hname]⟩
    · cases hf

/-! ## Features -/

theorem lookup_self_methodScope (scope : Scope Name Name) (formals : List Formal) :
    (methodScope scope formals).lookup .self = some .selfType := by
  have hothers : ((formals.filter (·.name ≠ .self)).map fun f => (f.name, f.type)).filter
      (·.1 = .self) = [] := by
    refine List.filter_eq_nil_iff.mpr (List.forall_mem_map.mpr fun f hf => ?_)
    simpa using (List.mem_filter.mp hf).2
  rw [methodScope, Scope.lookup_enterWith, List.filter_cons_of_pos (by simp), hothers]
  rfl

section

variable {p p' : Program} {ms : Members} (h : Pipeline.Analyzed p ms p') (hms : Regular ms)
variable {d d' : ClassDecl} (hd : Pipeline.CheckedClass ms p p' d d')

include h hms hd

/-- Where initializers are lowered. -/
theorem agrees_classSite (pool : Pool) : (classSite ms pool d.name).Agrees ⟨ms, d.name⟩
    ((classScope (ms.attributes d.name d.name)).enterWith [(.self, .selfType)]).lookup where
  toMatches := (matches_classSite (h.coherent.attributes_nodup hd.name_mem)).withSelf
  covers := covers_initScope hms hd.name_mem (not_isPrimitive hd.not_builtin)
  self := by rw [Scope.lookup_enterWith_singleton, if_pos rfl]

/-- Where the body of a method is lowered. -/
theorem agrees_withFormals (pool : Pool) {m : Method} (hm : .method m ∈ d.features) :
    ((classSite ms pool d.name).withFormals m.formals).Agrees ⟨ms, d.name⟩
      (methodScope (classScope (ms.attributes d.name d.name)) m.formals).lookup := by
  obtain ⟨e, -, hdeclares⟩ := h.coherent.declared_method hd.name_mem hd.declared hm
  have hmatches : (classSite ms pool d.name).Matches ⟨ms, d.name⟩ _ :=
    matches_classSite (h.coherent.attributes_nodup hd.name_mem)
  exact ⟨hmatches.withFormals (fun f hf => (hdeclares.formals_typed f hf).2)
      hdeclares.formals_nodup,
    covers_methodScope hms hd.name_mem (not_isPrimitive hd.not_builtin)
      fun f hf => (hdeclares.formals_typed f hf).1,
    lookup_self_methodScope _ _⟩

/-- An initializer is asked at the class of its attribute. -/
theorem inherits_initializer {pool : Pool} {a : Attribute} (ha : .attr a ∈ d.features)
    {t want : Name} (ht : (⟨ms, d.name⟩ : Context).Conforms t a.type)
    (hwant : (classSite ms pool d.name).attributeClass a.name = .ok want) :
    ms.hierarchy.Inherits (Members.resolve t d.name) want := by
  obtain ⟨entry, hentry, hname, rfl⟩ := attributeClass_eq_ok hwant
  obtain ⟨e, he, howns⟩ := h.coherent.declared_attribute hd.name_mem hd.declared ha
  obtain rfl := h.coherent.attribute_unique hd.name_mem he hentry (howns.name.trans hname.symm)
  exact inherits_attributeLayout (hms.proper _ hd.name_mem).toInstalled he (howns.type ▸ ht)

/-- The body of a method is asked at the class of its result. -/
theorem inherits_body {pool : Pool} {m : Method} (hm : .method m ∈ d.features) {t : Name}
    (ht : (⟨ms, d.name⟩ : Context).Conforms t m.result) {entry : MethodEntry}
    (hentry : (classSite ms pool d.name).ownMethod m = .ok entry) :
    ms.hierarchy.Inherits (Members.resolve t d.name) (resultLayout entry) := by
  have hcx := hms.proper d.name hd.name_mem
  obtain ⟨hmem, hname, -⟩ := ownMethod_eq_ok hentry
  obtain ⟨e, he, hdeclares⟩ := h.coherent.declared_method hd.name_mem hd.declared hm
  obtain rfl := h.coherent.method_unique hd.name_mem he hmem (hdeclares.name.trans hname.symm)
  -- on the receiver itself a call has the type that the method declares
  have hcall : Context.callType e .selfType = m.result := by
    unfold Context.callType
    split
    · rename_i hself
      rw [← hdeclares.result, hself]
    · exact hdeclares.result
  have hresult : ms.hierarchy.Inherits (Members.resolve (Context.callType e .selfType) d.name)
      (resultLayout e) :=
    inherits_resultLayout hcx.toInstalled (.inl rfl) (c := .selfType) he (.refl _)
  rw [hcall] at hresult
  exact (ht.inherits hcx.rooted).trans hresult

end

/-- The expressions of an accepted program are asked at classes above those of their types. -/
theorem typed_of_mem_programUses {p p' : Program} {ms : Members} (h : Pipeline.Analyzed p ms p')
    (hms : Regular ms) (hcomplete : ∀ d ∈ p.classes, ∀ f ∈ d.features, f.isComplete = true)
    {pool : Pool} {u : Use} (hu : u ∈ programUses ms pool p') :
    ∃ c ∈ ms.hierarchy.names, u.Typed ⟨ms, c⟩ := by
  obtain ⟨d', hd', hu⟩ := List.mem_flatMap.mp hu
  obtain ⟨f', hf', hu⟩ := List.mem_flatMap.mp hu
  obtain ⟨d, hd⟩ := h.listed d' hd'
  have hcx := hms.proper d.name hd.name_mem
  rw [hd.name] at hu
  refine ⟨d.name, hd.name_mem, ?_⟩
  obtain ⟨f, hf, haccepts⟩ := Members.Site.exists_left_of_forall₂ hd.features hf'
  cases haccepts with
  | @attr a init t hchecked hfit =>
      have hsite := agrees_classSite h hms hd pool
      cases habsent : init.isAbsent with
      | true =>
          rw [featureUses, if_pos habsent] at hu
          cases hu
      | false =>
          rw [featureUses, if_neg (Bool.eq_false_iff.mp habsent)] at hu
          rw [List.mem_singleton.mp hu]
          have hthere : a.init.isComplete = true := by
            have hfeature := hcomplete d hd.mem _ hf
            rwa [Feature.isComplete, ← hchecked.isAbsent_eq, habsent, Bool.false_or] at hfeature
          have he := hchecked.hasType hcx _ hsite.covers hthere
          refine ⟨_, a.init, t, he, hsite, fun want hwant => ?_⟩
          have hconforms := hfit.resolve_left (Bool.eq_false_iff.mp habsent)
          refine inherits_initializer h hms hd hf ?_ (toOption_eq_some_iff.mp hwant)
          exact (Hierarchy.conforms_iff hcx.rooted hcx.errType_not_mem
            (he.isType hcx.toInstalled hsite.covers) (Pipeline.attr_isType h hms hd hf)).mp
              hconforms
  | @method m body t hchecked hresult =>
      have hsite := agrees_withFormals h hms hd pool hf
      rw [List.mem_singleton.mp hu]
      have he := hchecked.hasType hcx _ hsite.covers (hcomplete d hd.mem _ hf)
      obtain ⟨e, -, hdeclares⟩ := h.coherent.declared_method hd.name_mem hd.declared hf
      have hdefined := hdeclares.result_typed
      refine ⟨_, m.body, t, he, hsite, fun want hwant => ?_⟩
      obtain ⟨entry, hentry, rfl⟩ := Option.map_eq_some_iff.mp hwant
      refine inherits_body h hms hd hf ?_ (toOption_eq_some_iff.mp hentry)
      exact (Hierarchy.conforms_iff hcx.rooted hcx.errType_not_mem
        (he.isType hcx.toInstalled hsite.covers) hdefined).mp
          (hresult (typeDefined_iff.mpr hdefined))

/-- The functions of a module cast values where the uses of its program do. -/
theorem castsBy_of_generate {ms : Members} {strings : Interner} {p : Program} {out : Output}
    (hout : generate ms strings p = .ok out) :
    ∀ f ∈ out.module.funcs, CastsBy (Lowered ms out.pool p) f.body := by
  obtain ⟨pool, common, s, hpool, hcommon, hemits, heq⟩ := generate_eq_ok hout
  obtain rfl := Except.ok.inj (hpool.symm.trans (pool_of_generate hout).1)
  rw [heq]
  exact hemits.castsBy (partsClosed_lowered ms out.pool p)
    (fun c _ f hf u hu => lowered_of_declared hf hu) (castsBy_commonFuncs hcommon)

/-- A module is generated by lowering the uses of its program. -/
theorem runs_of_generate {p p' : Program} {ms : Members} (h : Pipeline.Analyzed p ms p')
    {strings : Interner} {out : Output} (hout : generate ms strings p' = .ok out) {u : Use}
    (hu : Lowered ms out.pool p' u) : u.Runs := by
  obtain ⟨root, hroot, hasks⟩ := hu
  refine Use.Runs.asks ?_ hasks
  obtain ⟨d', hd', hroot⟩ := List.mem_flatMap.mp hroot
  obtain ⟨f, hf, hroot⟩ := List.mem_flatMap.mp hroot
  obtain ⟨d, hd⟩ := h.listed d' hd'
  have hfeatures : declaredFeatures p' d.name = d'.features := by
    rw [declaredFeatures, if_neg (by simp [hd.not_builtin]), hd.found]
  obtain ⟨pool, common, s, hpool, -, hemits, -⟩ := generate_eq_ok hout
  obtain rfl := Except.ok.inj (hpool.symm.trans (pool_of_generate hout).1)
  obtain ⟨s₁, s₂, hclass, -⟩ := hemits.exists_class
    ((Hierarchy.mem_topological h.coherent.rooted).mpr hd.name_mem)
  rw [hfeatures] at hclass
  exact hclass.runs (not_isPrimitive hd.not_builtin) hf root (hd.name ▸ hroot)

end Lowering

namespace Pipeline

open Lowering Wat

/-- Casts only narrow along the chain of ancestors. In an accepted program, the class of the value
that an expression leaves and the class it is asked at are ancestors of the class that represents
its type, or are that class. So a value is cast to a proper subclass of its class, and one that
conforms is not cast. A module is generated by lowering these expressions, and its functions hold no
other casts of the value on the stack. -/
theorem casts_narrow {p : Program} {ms : Members} (ha : (analyze p).verdict = .accepted ms)
    (herr : ∀ c ∈ p.classes, c.name ≠ .errType)
    (hcomplete : ∀ c ∈ p.classes, ∀ f ∈ c.features, f.isComplete = true) :
    (∀ pool u s code s', Lowered ms pool (analyze p).program u →
      lower u.site u.expr s = .ok (code, s') → u.Narrows ms.hierarchy code.cls) ∧
    ∀ strings out, generate ms strings (analyze p).program = .ok out →
      (∀ u, Lowered ms out.pool (analyze p).program u → u.Runs) ∧
      ∀ f ∈ out.module.funcs, ∀ q ∈ stackCasts [] f.body,
        ∃ u s code s' want, Lowered ms out.pool (analyze p).program u ∧
          lower u.site u.expr s = .ok (code, s') ∧ u.want = some want ∧
          code.instrs <:+ q.1 ∧ q.2 = valueType want ∧
          ms.hierarchy.Inherits want code.cls ∧ want ≠ code.cls := by
  have h := analyzed_of_accepted ha
  obtain ⟨hb, -⟩ := analyze_accepted ha
  have hms : Regular ms := regular_of_errType_not_mem h (errType_not_mem hb herr)
    fun _ _ => Members.parent_not_primitive_of_build hb
  have hnarrows : ∀ pool u s code s', Lowered ms pool (analyze p).program u →
      lower u.site u.expr s = .ok (code, s') → u.Narrows ms.hierarchy code.cls := by
    rintro pool u s code s' ⟨root, hroot, hasks⟩ hrun
    obtain ⟨c, hc, htyped⟩ := typed_of_mem_programUses h hms hcomplete hroot
    have hcx := hms.proper c hc
    exact (htyped.asks hcx.toInstalled hasks).narrows hcx hrun
  refine ⟨hnarrows, fun strings out hout => ⟨fun u => runs_of_generate h hout, ?_⟩⟩
  intro f hf q hq
  obtain ⟨_, ⟨u, hu, s, code, s', want, hrun, hwant, rfl, ht, hcast⟩, hsuffix⟩ :=
    castsBy_of_generate hout f hf q hq
  have hn := hnarrows _ u s code s' hu hrun
  have hfound : ¬ ms.hierarchy.Inherits code.cls want := by
    intro hfound
    rw [hn.kept want hwant hfound] at hcast
    cases hcast
  obtain ⟨-, hbelow, hne⟩ := hn.narrowed want hwant hfound
  exact ⟨u, s, code, s', want, hu, hrun, hwant, hsuffix, ht, hbelow, hne⟩

/-- The tree of `class A { me() : SELF_TYPE { self }; };` and
`class B inherits A { f() : B { me() }; };`. The call is of type `B` and leaves an `A`. -/
def selfReturning : Program :=
  let span : Span := ⟨"self.cl", 1⟩
  let m : Mark := { span }
  let a : Name := .named "A"
  let b : Name := .named "B"
  let me : Name := .named "me"
  ⟨span, [⟨span, a, .object, [.method ⟨span, me, [], .selfType, .object m .self⟩]⟩,
    ⟨span, b, a, [.method ⟨span, .named "f", [], b, .dispatch m (.object m .self) me []⟩]⟩]⟩

theorem casts_narrow_selfReturning : ∃ ms out, (analyze selfReturning).verdict = .accepted ms ∧
    generate ms {} (analyze selfReturning).program = .ok out ∧
    ∃ f ∈ out.module.funcs, ∃ q ∈ stackCasts [] f.body, q.2 = valueType (.named "B") ∧
      ∃ u s code s' want, Lowered ms out.pool (analyze selfReturning).program u ∧
        lower u.site u.expr s = .ok (code, s') ∧ u.want = some want ∧
        u.Narrows ms.hierarchy code.cls ∧ code.instrs <:+ q.1 ∧ q.2 = valueType want ∧
        ms.hierarchy.Inherits want code.cls ∧ want ≠ code.cls := by
  have hmodule : (analyze selfReturning).verdict.acceptedWith (fun ms =>
      match generate ms {} (analyze selfReturning).program with
      | .ok out => out.module.funcs.any fun f =>
          (stackCasts [] f.body).any fun q => q.2 = valueType (.named "B")
      | .error _ => false) = true := by
    decide +kernel
  obtain ⟨ms, ha, hms⟩ := Verdict.exists_of_acceptedWith hmodule
  cases hout : generate ms {} (analyze selfReturning).program with
  | error e =>
      rw [hout] at hms
      cases hms
  | ok out =>
      rw [hout] at hms
      obtain ⟨f, hf, hcasts⟩ := List.any_eq_true.mp hms
      obtain ⟨q, hq, htype⟩ := List.any_eq_true.mp hcasts
      obtain ⟨hnarrows, hmodule⟩ := casts_narrow ha (by decide) (by decide)
      obtain ⟨u, s, code, s', want, hu, hrun, hwant, hcast⟩ := (hmodule {} out hout).2 f hf q hq
      exact ⟨ms, out, ha, hout, f, hf, q, hq, of_decide_eq_true htype, u, s, code, s', want, hu,
        hrun, hwant, hnarrows _ u s code s' hu hrun, hcast⟩

end Pipeline

end Cool
