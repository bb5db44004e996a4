import Cool.Proofs.Lowering.Generated
import Cool.Proofs.Pipeline.Compilation

/-! Generated code is valid. In an accepted program whose names are identifiers and whose
expressions are all there, every feature is typed; typed features have code, and their code is
valid in the module it becomes part of. -/

namespace Cool

/-! ## Checking keeps literals and operators -/

/-- What is read from a node whatever its type and its parts are. -/
def Node.own (n : Node) : Option String × Bool :=
  (n.token?, n.inRange)

namespace Typing

mutual

theorem Accepts.own {cx : Context} : ∀ (e : Expr) {scope : Scope Name Name} {e' : Expr}
    {t : Name}, Accepts cx scope e (e', t) →
      e'.nodes.map Node.own = e.nodes.map Node.own
  | .missing, _, _, _, h => by
      cases h
      rfl
  | .noExpr _, _, _, _, h | .int _ _, _, _, _, h | .string _ _, _, _, _, h
  | .bool _ _, _, _, _, h | .new _ _, _, _, _, h | .object _ _, _, _, _, h => by
      cases h
      rfl
  | .block _ body, _, _, _, h => by
      cases h with
      | block hbody =>
          simp [Expr.nodes, Node.own, Node.token?, Node.inRange, AcceptsAll.own body hbody]
  | .assign _ _ value, _, _, _, h => by
      cases h with
      | assign hvalue _ _ _ =>
          simp [Expr.nodes, Node.own, Node.token?, Node.inRange, Accepts.own value hvalue]
  | .dispatch _ receiver _ args, _, _, _, h => by
      cases h with
      | dispatchIllTyped hreceiver hargs | dispatch hreceiver hargs _ _ _ =>
          simp [Expr.nodes, Node.own, Node.token?, Node.inRange, Accepts.own receiver hreceiver,
            AcceptsAll.own args hargs]
  | .staticDispatch _ receiver _ _ args, _, _, _, h => by
      cases h with
      | staticDispatch hreceiver hargs _ _ _ _ _ =>
          simp [Expr.nodes, Node.own, Node.token?, Node.inRange, Accepts.own receiver hreceiver,
            AcceptsAll.own args hargs]
  | .cond _ pred onTrue onFalse, _, _, _, h => by
      cases h with
      | cond hpred _ hTrue hFalse =>
          simp [Expr.nodes, Node.own, Node.token?, Node.inRange, Accepts.own pred hpred,
            Accepts.own onTrue hTrue, Accepts.own onFalse hFalse]
  | .loop _ pred body, _, _, _, h => by
      cases h with
      | loop hpred _ hbody =>
          simp [Expr.nodes, Node.own, Node.token?, Node.inRange, Accepts.own pred hpred,
            Accepts.own body hbody]
  | .caseOf _ scrutinee branches, _, _, _, h => by
      cases h with
      | caseOf hscrutinee hbranches =>
          simp [Expr.nodes, Node.own, Node.token?, Node.inRange, Accepts.own scrutinee hscrutinee,
            AcceptsBranches.own branches hbranches]
  | .letIn _ _ _ init body, _, _, _, h => by
      cases h with
      | letIn hinit _ hbody =>
          simp [Expr.nodes, Node.own, Node.token?, Node.inRange, Accepts.own init hinit,
            Accepts.own body hbody]
  | .binary _ _ left right, _, _, _, h => by
      cases h with
      | binary hleft hright _ =>
          simp [Expr.nodes, Node.own, Node.token?, Node.inRange, Accepts.own left hleft,
            Accepts.own right hright]
  | .unary _ _ operand, _, _, _, h => by
      cases h with
      | unary hoperand _ =>
          simp [Expr.nodes, Node.own, Node.token?, Node.inRange, Accepts.own operand hoperand]
termination_by structural e => e

theorem AcceptsAll.own {cx : Context} : ∀ (es : List Expr) {scope : Scope Name Name}
    {rs : List (Expr × Name)}, AcceptsAll cx scope es rs →
      (Expr.nodesAll (rs.map (·.1))).map Node.own = (Expr.nodesAll es).map Node.own
  | [], _, _, h => by
      cases h
      rfl
  | e :: es, _, _, h => by
      cases h with
      | cons he hes => simp [Expr.nodesAll, Accepts.own e he, AcceptsAll.own es hes]
termination_by structural es => es

theorem AcceptsBranches.own {cx : Context} : ∀ (bs : List Branch) {scope : Scope Name Name}
    {guards : List Name} {before : Option Name} {bs' : List Branch} {u : Option Name},
    AcceptsBranches cx scope guards before bs (bs', u) →
      (Branch.nodesAll bs').map Node.own = (Branch.nodesAll bs).map Node.own
  | [], _, _, _, _, _, h => by
      cases h
      rfl
  | .mk _ _ _ body :: bs, _, _, _, _, _, h => by
      cases h with
      | cons _ _ hbody hbs =>
          simp [Branch.nodesAll, Node.own, Node.token?, Node.inRange, Accepts.own body hbody,
            AcceptsBranches.own bs hbs]
termination_by structural bs => bs

end

theorem AcceptsFeature.own {cx : Context} {scope : Scope Name Name} {f f' : Feature}
    (h : AcceptsFeature cx scope f f') :
    f'.nodes.map Node.own = f.nodes.map Node.own := by
  cases h with
  | method hbody _ => simp [Feature.nodes, Node.own, Node.token?, Node.inRange, Accepts.own _ hbody]
  | attr hinit _ => simp [Feature.nodes, Node.own, Node.token?, Node.inRange, Accepts.own _ hinit]

end Typing

namespace Lowering

open Wat Typing

/-! ## Typed expressions have code -/

theorem mem_hasBranches {cx : Context} {Γ : Env} {bs bs' : List Branch} {ts : List Name}
    (h : HasBranches cx Γ bs bs' ts) {q : Branch} (hq : q ∈ bs') :
    q.type ∈ cx.hierarchy.names ∧ ∃ e t, HasType cx (Γ.bind q.name q.type) e q.body t := by
  induction bs' generalizing bs ts with
  | nil => cases hq
  | cons b bs' ih =>
      cases h with
      | cons hx hc he hbs =>
          rcases List.mem_cons.mp hq with rfl | hq
          · exact ⟨hc, _, _, he⟩
          · exact ih hbs hq

section

variable {cx : Context}

omit cx in
/-- The parts of an expression that are lowered with it are in it. -/
theorem nodes_of_mem_parts {L : Env} {e : Expr} {q : Env × Expr} (hq : q ∈ parts L e) {n : Node}
    (hn : n ∈ q.2.nodes) : n ∈ e.nodes := by
  have hall : ∀ {es : List Expr}, q ∈ es.map (fun e => (L, e)) → n ∈ Expr.nodesAll es := by
    intro es hmem
    obtain ⟨e₀, he₀, rfl⟩ := List.mem_map.mp hmem
    rw [Expr.nodesAll_eq]
    exact List.mem_flatMap.mpr ⟨.expr e₀, List.mem_map_of_mem he₀, hn⟩
  cases e with
  | missing | noExpr | int | string | bool | new | object => cases hq
  | block m body => exact List.mem_cons_of_mem _ (hall hq)
  | assign | unary =>
      rw [List.mem_singleton.mp hq] at hn
      exact List.mem_cons_of_mem _ hn
  | dispatch | staticDispatch =>
      refine List.mem_cons_of_mem _ (List.mem_append.mpr ?_)
      rcases List.mem_cons.mp hq with rfl | hq
      · exact .inl hn
      · exact .inr (hall hq)
  | cond =>
      simp only [parts, List.mem_cons, List.not_mem_nil, or_false] at hq
      rw [Expr.nodes]
      rcases hq with rfl | rfl | rfl <;> simp [hn]
  | loop | binary =>
      rw [Expr.nodes]
      rcases List.mem_pair.mp hq with rfl | rfl <;> simp [hn]
  | caseOf m scrutinee branches =>
      refine List.mem_cons_of_mem _ (List.mem_append.mpr ?_)
      rcases List.mem_cons.mp hq with rfl | hq
      · exact .inl hn
      · obtain ⟨b, hb, rfl⟩ := List.mem_map.mp hq
        rw [Branch.nodesAll_eq]
        refine .inr (List.mem_flatMap.mpr ⟨.branch b, List.mem_map_of_mem hb, ?_⟩)
        obtain ⟨span, x, guard, body⟩ := b
        exact List.mem_cons_of_mem _ (List.mem_append_left _ hn)
  | letIn m x type init body =>
      refine List.mem_cons_of_mem _ (List.mem_append.mpr ?_)
      rcases List.mem_append.mp hq with hq | hq
      · split at hq
        · cases hq
        · rw [List.mem_singleton.mp hq] at hn
          exact .inl hn
      · rw [List.mem_singleton.mp hq] at hn
        exact .inr hn

/-- The parts of a typed expression that are lowered with it are typed. -/
theorem parts_typed {Γ L : Env} {e e' : Expr} {t : Name} (h : HasType cx Γ e e' t)
    (hΓ : cx.Covers Γ) (hL : cx.Covers L) {q : Env × Expr} (hq : q ∈ parts L e') :
    cx.Covers q.1 ∧ ∃ Γ' e₀ t₀, HasType cx Γ' e₀ q.2 t₀ ∧ cx.Covers Γ' := by
  -- a part that sees the same variables as the whole
  have hsame : ∀ {e₀ e₀' : Expr} {t₀ : Name}, HasType cx Γ e₀ e₀' t₀ → q = (L, e₀') →
      cx.Covers q.1 ∧ ∃ Γ' e₀ t₀, HasType cx Γ' e₀ q.2 t₀ ∧ cx.Covers Γ' := by
    rintro e₀ e₀' t₀ he₀ rfl
    exact ⟨hL, _, _, _, he₀, hΓ⟩
  have hall : ∀ {es es' : List Expr} {ts : List Name}, HasTypes cx Γ es es' ts →
      q ∈ es'.map (fun e => (L, e)) →
      cx.Covers q.1 ∧ ∃ Γ' e₀ t₀, HasType cx Γ' e₀ q.2 t₀ ∧ cx.Covers Γ' := by
    intro es es' ts hes hmem
    obtain ⟨e₀', he₀', rfl⟩ := List.mem_map.mp hmem
    obtain ⟨e₀, t₀, he₀⟩ := hes.exists_hasType he₀'
    exact hsame he₀ rfl
  cases h with
  | object | int | string | bool | new => cases hq
  | assign _ _ he _ => exact hsame he (List.mem_singleton.mp hq)
  | dispatch he hargs _ _ | staticDispatch he hargs _ _ _ _ =>
      exact (List.mem_cons.mp hq).elim (hsame he) (hall hargs)
  | cond h₀ h₁ h₂ _ =>
      simp only [parts, List.mem_cons, List.not_mem_nil, or_false] at hq
      exact hq.elim (hsame h₀) fun hq => hq.elim (hsame h₁) (hsame h₂)
  | loop h₀ h₁ => exact (List.mem_pair.mp hq).elim (hsame h₀) (hsame h₁)
  | block hes => exact hall hes hq
  | caseOf he hbs _ _ _ =>
      rcases List.mem_cons.mp hq with hq | hq
      · exact hsame he hq
      · obtain ⟨b, hb, rfl⟩ := List.mem_map.mp hq
        obtain ⟨hc, e₀, t₀, he₀⟩ := mem_hasBranches hbs hb
        exact ⟨hL.bind (.inr hc), _, _, _, he₀, hΓ.bind (.inr hc)⟩
  | letIn _ ht h₀ _ h₁ =>
      rcases List.mem_append.mp hq with hq | hq
      · split at hq
        · cases hq
        · exact hsame h₀ (List.mem_singleton.mp hq)
      · rw [List.mem_singleton.mp hq]
        exact ⟨hL.bind ht, _, _, _, h₁, hΓ.bind ht⟩
  | letDefault _ ht habsent h₁ =>
      rcases List.mem_append.mp hq with hq | hq
      · rw [if_pos ((Expr.isAbsent_untyped _).trans habsent)] at hq
        cases hq
      · rw [List.mem_singleton.mp hq]
        exact ⟨hL.bind ht, _, _, _, h₁, hΓ.bind ht⟩
  | arithmetic _ h₁ h₂ | comparison _ _ h₁ h₂ | equality h₁ h₂ _ =>
      exact (List.mem_pair.mp hq).elim (hsame h₁) (hsame h₂)
  | neg he | comp he | test _ _ he => exact hsame he (List.mem_singleton.mp hq)

variable (hcx : cx.Proper) (hlaid : ∀ t, cx.IsType t → ¬ NoLayout t)

include hcx hlaid

theorem not_isCulprit {Γ L : Env} {e e' : Expr} {t : Name} (h : HasType cx Γ e e' t)
    (hn : ∀ n ∈ e'.nodes, n.inRange = true) (hΓ : cx.Covers Γ) (hL : cx.Covers L) :
    ¬ IsCulprit cx L e' := by
  have hbound : ∀ {L : Env}, cx.Covers L → ¬ ∃ x t, L x = some t ∧ NoLayout t := by
    rintro L hL ⟨x, u, hx, hu⟩
    exact hlaid u (hL x u hx) hu
  have hown : ¬ NoLayout t := hlaid t (h.isType hcx.toInstalled hΓ)
  intro hculprit
  cases h with
  | object =>
      obtain ⟨-, u, hx, hu⟩ := hculprit
      exact hbound hL ⟨_, u, hx, hu⟩
  | assign => exact hbound hL ⟨_, hculprit⟩
  | dispatch he _ _ _ =>
      exact hcx.ne_errType (he.isType hcx.toInstalled hΓ) (he.type_eq.symm.trans hculprit.1)
  | cond => exact hown hculprit
  | caseOf he hbs _ _ _ =>
      rcases hculprit with hno | hno | ⟨b, hb, -, hno⟩
      · exact hown hno
      · exact hbound hL hno
      · exact hlaid _ (.inr (mem_hasBranches hbs hb).1) hno
  | letIn _ ht _ _ _ | letDefault _ ht _ _ =>
      rcases hculprit with hno | hno | hno
      · exact hown hno
      · exact hlaid _ ht hno
      · exact hlaid _ ht ((exists_noLayout_passed (hbound hL)).mp hno).2
  | arithmetic | comparison | equality | neg | comp | test =>
      have hnamed := (List.forall_mem_cons.mp hn).1
      rw [Node.inRange, show _ = none from hculprit] at hnamed
      cases hnamed
  | _ => exact hculprit

/-- A typed expression whose operators have names has code. -/
theorem not_noCode {L : Env} {e' : Expr} (hno : NoCode cx L e') {Γ : Env} {e : Expr} {t : Name}
    (h : HasType cx Γ e e' t) (hn : ∀ n ∈ e'.nodes, n.inRange = true) (hΓ : cx.Covers Γ)
    (hL : cx.Covers L) : False := by
  induction hno generalizing Γ e t with
  | here hculprit => exact not_isCulprit hcx hlaid h hn hΓ hL hculprit
  | inside hq _ ih =>
      obtain ⟨hL', Γ', e₀, t₀, he₀, hΓ'⟩ := parts_typed h hΓ hL hq
      exact ih he₀ (fun n hmem => hn n (nodes_of_mem_parts hq hmem)) hΓ' hL'

end

/-! ## The features of an accepted program -/

theorem not_noLayout {ms : Members} (hms : Named ms) {t : Name} (ht : ms.hierarchy.IsType t) :
    ¬ NoLayout t := by
  rcases ht with rfl | ht
  · unfold NoLayout
    decide
  · have hclass := hms.classes t ht
    rintro (rfl | rfl | rfl) <;> revert hclass <;> decide

/-- The builtin classes that have attributes are those of constants. -/
theorem builtin_attribute_owner : ∀ d ∈ Builtin.classes,
    d.features.filterMap Feature.attribute? ≠ [] → d.name.isPrimitive = true := by
  decide

section

variable {p p' : Program} {ms : Members} (h : Pipeline.Analyzed p ms p')

include h

/-- The attributes of an object are declared by classes of the program: the builtin ones belong to
the constants. -/
theorem attribute_owner_not_builtin
    (hparent : ∀ c q, ms.hierarchy.parent? c = some q → q.isPrimitive = false)
    {c : Name} (hc : c ∈ ms.hierarchy.names) (hprim : c.isPrimitive = false) {a : AttributeEntry}
    (ha : a ∈ ms.attributes c c) : a.owner.isBuiltin = false := by
  obtain ⟨hbelow, decl, d, hdecl, hd, howns⟩ := h.coherent.seenAttribute hc a ha
  refine Bool.eq_false_iff.mpr fun hbuiltin => ?_
  obtain ⟨b, hb, hname⟩ := Hierarchy.isBuiltin_iff.mp hbuiltin
  have hdecl' := h.builtin b hb
  rw [hname, hdecl] at hdecl'
  cases hdecl'
  have howner : a.owner.isPrimitive = true := by
    refine hname ▸ builtin_attribute_owner _ hb fun hnil => ?_
    have hmem : d ∈ decl.features.filterMap Feature.attribute? :=
      List.mem_filterMap.mpr ⟨_, hd, rfl⟩
    rw [hnil] at hmem
    cases hmem
  rcases Relation.ReflTransGen.cases_tail hbelow with heq | ⟨q, -, hq⟩
  · rw [← heq, howner] at hprim
    cases hprim
  · have hnot := hparent q a.owner hq
    rw [howner] at hnot
    cases hnot

/-- So they are of classes. -/
theorem attribute_isType (hparent : ∀ c q, ms.hierarchy.parent? c = some q → q.isPrimitive = false)
    {c : Name} (hc : c ∈ ms.hierarchy.names) (hprim : c.isPrimitive = false) {a : AttributeEntry}
    (ha : a ∈ ms.attributes c c) : ms.hierarchy.IsType a.type := by
  obtain ⟨-, decl, d, -, -, howns⟩ := h.coherent.seenAttribute hc a ha
  have htyped := howns.typed
  rw [Members.Site.attributeTypeDefined, Bool.or_eq_true, Bool.and_eq_true] at htyped
  rcases htyped with ⟨-, hbuiltin⟩ | htyped
  · have howner := attribute_owner_not_builtin h hparent hc hprim ha
    exact absurd hbuiltin (Bool.eq_false_iff.mp howner)
  · rw [howns.type]
    exact Members.Site.typeDefined_iff.mp htyped

theorem regular_of_errType_not_mem (herr : Name.errType ∉ ms.hierarchy.names)
    (hparent : ∀ c q, ms.hierarchy.parent? c = some q → q.isPrimitive = false) : Regular ms where
  proper c hc := ⟨h.installed c hc, herr⟩
  object_mem := h.mem_of_builtin (d := Builtin.object) List.mem_cons_self
  builtin := h.builtin
  parent_object := hparent
  attribute_typed _ hc hprim _ ha := attribute_isType h hparent hc hprim ha

theorem regular_of_analyzed (hms : Named ms)
    (hparent : ∀ c q, ms.hierarchy.parent? c = some q → q.isPrimitive = false) : Regular ms := by
  refine regular_of_errType_not_mem h (fun hmem => ?_) hparent
  have hclass := hms.classes _ hmem
  revert hclass
  decide

/-- The class of a feature of the program. -/
theorem exists_checkedClass {c : Name} (hc : c ∈ ms.hierarchy.names) {f : Feature}
    (hf : f ∈ declaredFeatures p' c) : ∃ d d', d.name = c ∧
      Pipeline.CheckedClass ms p p' d d' ∧ f ∈ d'.features := by
  cases hbuiltin : c.isBuiltin with
  | true =>
      rw [declaredFeatures_builtin hbuiltin] at hf
      cases hf
  | false =>
      obtain ⟨d, d', rfl, hd⟩ := h.own c hc hbuiltin
      rw [declaredFeatures, if_neg (by simp [hbuiltin]), hd.found] at hf
      exact ⟨d, d', rfl, hd, hf⟩

omit h in
/-- The nodes of a feature are nodes of its program. -/
theorem mem_program_nodes {d : ClassDecl} (hd : d ∈ p.classes) {f : Feature} (hf : f ∈ d.features)
    {n : Node} (hn : n ∈ f.nodes) : n ∈ p.nodes :=
  List.mem_cons_of_mem _ (List.mem_flatMap.mpr ⟨d, hd,
    List.mem_cons_of_mem _ (List.mem_flatMap.mpr ⟨f, hf, hn⟩)⟩)

theorem featuresTyped (hregular : Regular ms) (hnamed : ∀ n ∈ p.nodes, n.isNamed = true)
    (hcomplete : ∀ d ∈ p.classes, ∀ f ∈ d.features, f.isComplete = true) {c : Name}
    (hc : c ∈ ms.hierarchy.names) : FeaturesTyped ms c (declaredFeatures p' c) := by
  have hcx := hregular.proper c hc
  refine ⟨fun a' ha' hinit => ?_, fun m' hm' => ?_⟩
  · obtain ⟨d, d', rfl, hd, ha'⟩ := exists_checkedClass h hc ha'
    have hprim := not_isPrimitive hd.not_builtin
    obtain ⟨f, hf, haccepts⟩ := Members.Site.exists_left_of_forall₂ hd.features ha'
    cases haccepts with
    | @attr a init t hchecked _ =>
        have hthere : a.init.isComplete = true := by
          have hfeature := hcomplete d hd.mem _ hf
          rwa [Feature.isComplete, ← hchecked.isAbsent_eq, hinit, Bool.false_or] at hfeature
        refine ⟨a.init, t, hchecked.hasType hcx _ (covers_initScope hregular hc hprim) hthere, ?_⟩
        exact fun n hn => hnamed n (mem_program_nodes hd.mem hf (List.mem_cons_of_mem _ hn))
  · obtain ⟨d, d', rfl, hd, hm'⟩ := exists_checkedClass h hc hm'
    have hprim := not_isPrimitive hd.not_builtin
    obtain ⟨f, hf, haccepts⟩ := Members.Site.exists_left_of_forall₂ hd.features hm'
    cases haccepts with
    | @method m body t hchecked _ =>
        obtain ⟨e, he, hdeclares⟩ := h.coherent.declared_method hc hd.declared hf
        have hformals : FormalsTyped ms m.formals := by
          refine ⟨hdeclares.formals_nodup, fun f hfm => ⟨?_, (hdeclares.formals_typed f hfm).2⟩,
            fun f hfm => (hdeclares.formals_typed f hfm).1⟩
          exact hnamed (.formal f) (mem_program_nodes hd.mem hf
            (List.mem_cons_of_mem _ (List.mem_append_left _ (List.mem_map_of_mem hfm))))
        refine ⟨hformals, fun e' he' hname => ?_, m.body, t, ?_, fun n hn => hnamed n ?_⟩
        · rw [h.coherent.method_unique hc he' he (hname.trans hdeclares.name.symm)]
          exact hdeclares.params
        · exact hchecked.hasType hcx _ (covers_methodScope hregular hc hprim hformals.typed)
            (hcomplete d hd.mem _ hf)
        · exact mem_program_nodes hd.mem hf
            (List.mem_cons_of_mem _ (List.mem_append_right _ hn))

/-- The features of an accepted program have code if all its expressions are there and their
operators have names. -/
theorem not_featureNoCode (hms : Named ms) (hregular : Regular ms)
    (hnamed : ∀ n ∈ p.nodes, n.isNamed = true) (hoperators : ∀ n ∈ p'.nodes, n.inRange = true)
    (hcomplete : ∀ d ∈ p.classes, ∀ f ∈ d.features, f.isComplete = true) {d' : ClassDecl}
    (hd' : d' ∈ p'.classes) {f : Feature} (hf : f ∈ d'.features) :
    ¬ FeatureNoCode ⟨ms, d'.name⟩ f := by
  obtain ⟨d, hd⟩ := h.listed d' hd'
  rw [hd.name]
  have hc := hd.name_mem
  have hprim := not_isPrimitive hd.not_builtin
  have hcx := hregular.proper d.name hc
  have hlaid : ∀ t, (⟨ms, d.name⟩ : Context).IsType t → ¬ NoLayout t :=
    fun t ht => not_noLayout hms ht
  have hmem : f ∈ declaredFeatures p' d.name := by
    rwa [declaredFeatures, if_neg (by simp [hd.not_builtin]), hd.found]
  have htyped := featuresTyped h hregular hnamed hcomplete hc
  have hrange : ∀ n ∈ f.nodes, n.inRange = true :=
    fun n hn => hoperators n (mem_program_nodes hd' hf hn)
  cases f with
  | attr a =>
      rintro (hno | ⟨hinit, hno⟩)
      · obtain ⟨b, hb, -, htype⟩ := hd.attribute_of_mem hf
        obtain ⟨e, he, howns⟩ := h.coherent.declared_attribute hc hd.declared hb
        have hisType := attribute_isType h hregular.parent_object hc hprim he
        rw [howns.type, htype] at hisType
        exact hlaid _ (.inr (hcx.resolve_mem hisType)) hno
      · obtain ⟨e, t, he, -⟩ := htyped.attributes a hmem hinit
        exact not_noCode hcx hlaid hno he (List.forall_mem_cons.mp hrange).2
          (covers_initScope hregular hc hprim) fun _ _ hlocal => by cases hlocal
  | method m =>
      intro hno
      have hm := htyped.methods m hmem
      obtain ⟨e, t, he, -⟩ := hm.body
      refine not_noCode hcx hlaid hno he
        (List.forall_mem_append.mp (List.forall_mem_cons.mp hrange).2).2
        (covers_methodScope hregular hc hprim hm.formals.typed) fun x u hx => ?_
      obtain ⟨f, hfind, rfl⟩ := Option.map_eq_some_iff.mp hx
      exact .inr (hm.formals.typed f (List.mem_of_find?_eq_some hfind))

/-! ## The module of an accepted program -/

/-- The module of a program declares what its functions refer to. -/
theorem provides_moduleOf {pool : Pool} {common : List Func} {s : Progress}
    (hcommon : commonFuncs ms = .ok common)
    (hemits : EmitsAll ms pool (declaredFeatures p') ms.hierarchy.topological
      { funcs := common } s) : Provides (moduleOf ms pool s.funcs) ms pool where
  fixed t ht := List.mem_append_left _ ht
  object c hc := mem_types h.coherent.rooted hc (List.mem_append_right _
    (List.mem_cons_of_mem _ List.mem_cons_self))
  table c hc := mem_types h.coherent.rooted hc (List.mem_append_right _ List.mem_cons_self)
  slot c hc e he := slot_mem h.coherent hc he
  tableGlobal c hc := ⟨tableDefinition ms c, List.mem_append_left _
    (List.mem_map_of_mem ((Hierarchy.mem_topological h.coherent.rooted).mpr hc)), rfl, rfl⟩
  constants g hg := List.mem_append_right _ hg
  tag := ⟨"abortTag", List.mem_cons_self⟩
  helpers f hf := by
    obtain ⟨methods, -, heq⟩ := except_bind_eq_ok.mp hcommon
    refine hemits.mem_funcs ?_
    rw [← Except.ok.inj heq]
    refine List.mem_append_left _ ?_
    simp only [List.mem_append, List.mem_cons] at hf ⊢
    tauto
  allocator c hc := hasFunc_new h hemits hc
  initializer c hc hprim := hasFunc_init h hemits hc hprim
  generic c hc e he := hasFunc_generic h hemits hc he
  implementation c hc e he hnot := by
    obtain ⟨f, hf, hname, hfits⟩ := exists_tableEntry h hcommon hemits hc he
    have hentry : tableEntry c e = e.implementationId :=
      if_neg fun hper => hnot (of_decide_eq_true hper).1
    rw [← hentry, ← hname]
    exact hfits.hasFunc hf

end

end Lowering

namespace Pipeline

open Lowering Wat

theorem denotes_iff {n : Node} :
    Pool.Denotes n ↔ ∀ token, n.token? = some token → ∃ k, Literal.parse token = .ok k := by
  unfold Pool.Denotes Node.token?
  split <;> simp

section

variable {p p' : Program} {ms : Members} (h : Analyzed p ms p')

include h

/-- The literals and operators of a program are those of the program it was checked from. -/
theorem exists_node_checked {n : Node} (hn : n ∈ p'.nodes) :
    n.own = (none, true) ∨ ∃ n₀ ∈ p.nodes, n₀.own = n.own := by
  rcases List.mem_cons.mp hn with rfl | hn
  · exact .inl rfl
  obtain ⟨d', hd', hn⟩ := List.mem_flatMap.mp hn
  rcases List.mem_cons.mp hn with rfl | hn
  · exact .inl rfl
  obtain ⟨f', hf', hn⟩ := List.mem_flatMap.mp hn
  obtain ⟨d, hd⟩ := h.listed d' hd'
  obtain ⟨f, hf, haccepts⟩ := Members.Site.exists_left_of_forall₂ hd.features hf'
  have hmem : n.own ∈ f.nodes.map Node.own := haccepts.own ▸ List.mem_map_of_mem hn
  obtain ⟨n₀, hn₀, hown⟩ := List.mem_map.mp hmem
  exact .inr ⟨n₀, mem_program_nodes hd.mem hf hn₀, hown⟩

theorem literalsDenote_checked (hp : LiteralsDenote p) : LiteralsDenote p' := by
  intro n hn
  rw [denotes_iff]
  intro token htoken
  rcases exists_node_checked h hn with hown | ⟨n₀, hn₀, hown⟩
  · cases htoken.symm.trans (congrArg Prod.fst hown)
  · exact denotes_iff.mp (hp n₀ hn₀) token ((congrArg Prod.fst hown).trans htoken)

theorem inRange_checked (hp : ∀ n ∈ p.nodes, n.inRange = true) :
    ∀ n ∈ p'.nodes, n.inRange = true := by
  intro n hn
  rcases exists_node_checked h hn with hown | ⟨n₀, hn₀, hown⟩
  · exact congrArg Prod.snd hown
  · exact (congrArg Prod.snd hown).symm.trans (hp n₀ hn₀)

end

theorem regular_of_accepted {p : Program} {ms : Members}
    (ha : (analyze p).verdict = .accepted ms) (hnamed : ∀ n ∈ p.nodes, n.isNamed = true) :
    Regular ms :=
  have h := analyzed_of_accepted ha
  regular_of_analyzed h (named_of_analyzed h hnamed) fun _ _ =>
    Members.parent_not_primitive_of_build (analyze_accepted ha).1

/-- The functions of a complete program are those every module has, and valid ones. -/
theorem emitted_valid {p : Program} {ms : Members} (ha : (analyze p).verdict = .accepted ms)
    (hnamed : ∀ n ∈ p.nodes, n.isNamed = true)
    (hcomplete : ∀ c ∈ p.classes, ∀ f ∈ c.features, f.isComplete = true)
    {pool : Pool} {common : List Func} {s : Progress} (hcommon : commonFuncs ms = .ok common)
    (hemits : EmitsAll ms pool (declaredFeatures (analyze p).program) ms.hierarchy.topological
      { funcs := common } s) :
    ∀ f ∈ s.funcs, f ∈ common ∨ f.Valid (moduleOf ms pool s.funcs) := by
  have h := analyzed_of_accepted ha
  have hregular := regular_of_accepted ha hnamed
  have hmem := fun {c} => (Hierarchy.mem_topological (c := c) h.coherent.rooted).mp
  exact hemits.typed hregular (provides_moduleOf h hcommon hemits) (fun c hc => hmem hc)
    (fun c hc => featuresTyped h hregular hnamed hcomplete (hmem hc))
    (fun c _ hprim => declaredFeatures_builtin (isBuiltin_of_isPrimitive hprim)) fun f hf => hf

/-- The module of an accepted program is generated, and the functions of its classes are valid in
it: the names of the program are identifiers, its operators are in range, its integer literals
denote integers, no part of it is missing but the initializers of attributes and variables, and
every case has a branch. -/
theorem generated_code_valid {p : Program} {ms : Members} (strings : Interner)
    (ha : (analyze p).verdict = .accepted ms) (hnamed : ∀ n ∈ p.nodes, n.isNamed = true)
    (hoperators : ∀ n ∈ p.nodes, n.inRange = true) (hliterals : LiteralsDenote p)
    (hcomplete : ∀ c ∈ p.classes, ∀ f ∈ c.features, f.isComplete = true) :
    ∃ out common own, generate ms strings (analyze p).program = .ok out ∧
      commonFuncs ms = .ok common ∧ out.module.funcs = common ++ own ∧
      out.module.NamesDistinct ∧ ∀ f ∈ own, f.Valid out.module := by
  have h := analyzed_of_accepted ha
  have hms := named_of_analyzed h hnamed
  have hregular := regular_of_accepted ha hnamed
  -- every feature has code, so there is a module
  have hcode : ¬ HasNoCode ms (analyze p).program := by
    rintro ⟨d', hd', f, hf, hno⟩
    exact not_featureNoCode h hms hregular hnamed (inRange_checked h hoperators) hcomplete hd' hf
      hno
  have hmodule : ∃ out, generate ms strings (analyze p).program = .ok out := by
    rcases generate_denoted strings h (literalsDenote_checked h hliterals) with
      ⟨-, hout⟩ | ⟨hno, -⟩
    · exact hout
    · exact absurd hno hcode
  obtain ⟨out, hout⟩ := hmodule
  obtain ⟨pool, common, s, hpool, hcommon, hemits, heq⟩ := generate_eq_ok hout
  have hdistinct := namesDistinct_moduleOf h hms (Pool.serves_of_ofProgram hpool).ints_nodup
    hcommon hemits
  obtain ⟨own, -, hfuncs, -⟩ := exists_emitted h hemits
  refine ⟨out, common, own, hout, hcommon, by rw [heq]; exact hfuncs, heq ▸ hdistinct,
    fun f hf => ?_⟩
  rw [heq]
  rcases emitted_valid ha hnamed hcomplete hcommon hemits f
    (hfuncs ▸ List.mem_append_right _ hf) with hin | hf
  -- a function of a class has another name than those every module has
  · exfalso
    have hnodup : (s.funcs.map (·.name)).Nodup := (List.nodup_append'.mp hdistinct.funcs).2.1
    rw [hfuncs, List.map_append] at hnodup
    exact (List.nodup_append'.mp hnodup).2.2 (List.mem_map_of_mem hin) (List.mem_map_of_mem hf)
  · exact hf

/-- The tree of a class with attributes `x : Int <- 1 + 1` and `w : String`, whose initializer is
missing, and with a method `f(y : Object) : Object` that selects on its formal inside of a let,
`let z : Int in case y of i : Int => z <- i; esac`. -/
def lifting : Program :=
  let span : Span := ⟨"lifting.cl", 1⟩
  let m : Mark := { span }
  let z : Name := .named "z"
  ⟨span, [⟨span, .named "A", .object,
    [.attr ⟨span, .named "x", .int, .binary m .plus (.int m "1") (.int m "1")⟩,
      .attr ⟨span, .named "w", .string, .missing⟩,
      .method ⟨span, .named "f", [⟨span, .named "y", .object⟩], .object,
        .letIn m z .int (.noExpr m)
          (.caseOf m (.object m (.named "y"))
            [.mk span (.named "i") .int (.assign m z (.object m (.named "i")))])⟩]⟩]⟩

theorem generated_code_valid_lifting : ∃ ms out common own,
    (analyze lifting).verdict = .accepted ms ∧
    generate ms {} (analyze lifting).program = .ok out ∧ commonFuncs ms = .ok common ∧
    out.module.funcs = common ++ own ∧ ∀ f ∈ own, f.Valid out.module := by
  have haccepts : (analyze lifting).verdict.acceptedWith (fun _ => true) = true := by
    decide +kernel
  obtain ⟨ms, ha, -⟩ := Verdict.exists_of_acceptedWith haccepts
  have hliterals : LiteralsDenote lifting := by
    have htokens : ∀ n ∈ lifting.nodes,
        n.token?.all (fun t => (Literal.parse t).toOption.isSome) = true := by
      decide +kernel
    intro n hn
    rw [denotes_iff]
    intro token htoken
    have hparse := htokens n hn
    rw [htoken] at hparse
    cases hk : Literal.parse token with
    | error e => simp [hk, Except.toOption] at hparse
    | ok k => exact ⟨k, rfl⟩
  obtain ⟨out, common, own, hout, hcommon, hfuncs, -, hvalid⟩ := generated_code_valid {} ha
    (by decide +kernel) (by decide +kernel) hliterals (by decide +kernel)
  exact ⟨ms, out, common, own, ha, hout, hcommon, hfuncs, hvalid⟩

end Pipeline

end Cool
