import Cool.Proofs.Tree.Places
import Cool.Proofs.Typing.Narrowing
import Cool.Proofs.Typing.Program

/-! Checking after a mistake. If one part of an accepted expression is replaced by a part with a
single mistake, then checking the whole reports that mistake, and what is around it adds at most one
complaint, at the innermost equality test. -/

namespace Cool.Typing

variable {α β : Type}

/-! ## Runs with a mistake -/

/-- A run that returns a value and records the given reports. -/
def Records (x : Recording α) (a : α) (rs : List (Report Problem)) : Prop :=
  ∀ j : Journal, j.halted = false → x.run j = (a, { j with reports := j.reports ++ rs })

theorem Silent.records {x : Recording α} {a : α} (hx : Silent x a) : Records x a [] := by
  intro j hj
  rw [hx j hj, List.append_nil]

theorem Records.bind {x : Recording α} {f : α → Recording β} {a : α} {b : β}
    {rs rs' : List (Report Problem)} (hx : Records x a rs) (hf : Records (f a) b rs') :
    Records (x >>= f) b (rs ++ rs') := by
  intro j hj
  have hrun := hf { j with reports := j.reports ++ rs } hj
  rw [List.append_assoc] at hrun
  rw [StateT.run_bind, hx j hj]
  exact hrun

theorem Records.report (span : Span) (problem : Problem) :
    Records (report span problem) () [⟨span, problem⟩] := by
  intro j hj
  rw [report_run, hj]
  rfl

/-- What may follow the report of a mistake: nothing, or a complaint about the equality test in
which the mistake was made. -/
def Aftermath (test? : Option Span) (rs : List (Report Problem)) : Prop :=
  rs = [] ∨ ∃ span t u, test? = some span ∧ rs = [⟨span, .equality t u⟩]

/-- A run that records a mistake and its aftermath, and goes on with a value of a property. -/
def Stumbles (x : Recording α) (mistake : Report Problem) (test? : Option Span) (P : α → Prop) :
    Prop :=
  ∃ a rest, Records x a (mistake :: rest) ∧ Aftermath test? rest ∧ P a

/-- A run that records nothing and returns a value of a property. -/
def Passes (x : Recording α) (P : α → Prop) : Prop :=
  ∃ a, Silent x a ∧ P a

/-- A run that records at most the complaint of an equality test, and none if a test within it holds
the mistake. -/
def Tests (x : Recording α) (own? test? : Option Span) (P : α → Prop) : Prop :=
  ∃ a rest, Records x a rest ∧ Aftermath own? rest ∧ (test?.isSome = true → rest = []) ∧ P a

section

variable {mistake : Report Problem} {own? test? : Option Span} {P : α → Prop} {Q : β → Prop}

theorem Passes.pure {a : α} (ha : P a) : Passes (pure a) P :=
  ⟨a, .pure a, ha⟩

theorem Passes.typed {m : Mark} {t : Name} {form : Mark → Expr} {P : Expr × Name → Prop}
    (ht : P (form { m with type := t }, t)) : Passes (typed m t form) P :=
  ⟨_, (Decides.typed m t form).silent rfl, ht⟩

theorem Silent.passes {x : Recording α} {f : α → Recording β} {a : α} (hx : Silent x a)
    (hf : Passes (f a) Q) : Passes (x >>= f) Q := by
  obtain ⟨b, hb, hq⟩ := hf
  exact ⟨b, hx.bind hb, hq⟩

theorem Silent.stumbles {x : Recording α} {f : α → Recording β} {a : α} (hx : Silent x a)
    (hf : Stumbles (f a) mistake test? Q) : Stumbles (x >>= f) mistake test? Q := by
  obtain ⟨b, rest, hb, hrest, hq⟩ := hf
  exact ⟨b, rest, hx.records.bind hb, hrest, hq⟩

theorem Silent.tests {x : Recording α} {f : α → Recording β} {a : α} (hx : Silent x a)
    (hf : Tests (f a) own? test? Q) : Tests (x >>= f) own? test? Q := by
  obtain ⟨b, rest, hb, hrest⟩ := hf
  exact ⟨b, rest, hx.records.bind hb, hrest⟩

/-- Nothing around a mistake has to say anything. -/
theorem Stumbles.bind {x : Recording α} {f : α → Recording β} (hx : Stumbles x mistake test? P)
    (hf : ∀ a, P a → Passes (f a) Q) : Stumbles (x >>= f) mistake test? Q := by
  obtain ⟨a, rest, ha, hrest, hp⟩ := hx
  obtain ⟨b, hb, hq⟩ := hf a hp
  have hrun := ha.bind hb.records
  rw [List.append_nil] at hrun
  exact ⟨b, rest, hrun, hrest, hq⟩

/-- But the first equality test around it may complain. -/
theorem Stumbles.bind_test {x : Recording α} {f : α → Recording β}
    (hx : Stumbles x mistake test? P) (hf : ∀ a, P a → Tests (f a) own? test? Q) :
    Stumbles (x >>= f) mistake (test?.or own?) Q := by
  obtain ⟨a, rest, ha, hrest, hp⟩ := hx
  obtain ⟨b, rest', hb, hrest', hnone, hq⟩ := hf a hp
  refine ⟨b, rest ++ rest', ha.bind hb, ?_, hq⟩
  cases test? with
  | none =>
      obtain rfl : rest = [] := hrest.resolve_right nofun
      exact hrest'
  | some span =>
      rw [hnone rfl, List.append_nil]
      exact hrest

end

/-! ## Frames -/

/-- Wherever the expression `e` is accepted, checking `e'` in its place reports the mistake once and
goes on with a narrower type. -/
def Recovers (cx : Context) (scope : Scope Name Name) (e e' : Expr) (mistake : Report Problem)
    (test? : Option Span) : Prop :=
  ∀ ⦃r : Expr × Name⦄, cx.Covers scope.lookup → e.isComplete = true → Accepts cx scope e r →
    Stumbles (check cx scope e') mistake test? (fun r' => cx.Keeps test? r'.2 r.2)

variable {cx : Context} {scope : Scope Name Name} {e e' : Expr} {mistake : Report Problem}
  {test? : Option Span} {m : Mark}

theorem Accepts.isType (hcx : cx.Proper) (hscope : cx.Covers scope.lookup)
    (he : e.isComplete = true) {r : Expr × Name} (h : Accepts cx scope e r) : cx.IsType r.2 :=
  (Accepts.hasType hcx e hscope he h).isType hcx.toInstalled hscope

theorem AcceptsAll.isType (hcx : cx.Proper) (hscope : cx.Covers scope.lookup) {es : List Expr}
    (hes : Expr.allComplete es = true) {rs : List (Expr × Name)} (h : AcceptsAll cx scope es rs) :
    ∀ r ∈ rs, cx.IsType r.2 := fun r hr =>
  (AcceptsAll.hasTypes hcx es hscope hes h).isType hcx.toInstalled hscope r.2
    (List.mem_map_of_mem hr)

/-- A call that is accepted is one of a method. -/
theorem Accepts.call (hcx : cx.Proper) (hscope : cx.Covers scope.lookup) {args : List Expr}
    {x : Name} {r : Expr × Name} (he : e.isComplete = true)
    (h : Accepts cx scope (.dispatch m e x args) r) :
    ∃ e' t rs f, Accepts cx scope e (e', t) ∧ AcceptsAll cx scope args rs ∧ t ≠ .errType ∧
      cx.IsType t ∧ cx.method? t x = some f ∧ cx.ArgumentsConform f.params rs ∧
      r.2 = Context.callType f t := by
  cases h with
  | dispatchIllTyped hr _ => exact absurd rfl (hcx.ne_errType (hr.isType hcx hscope he))
  | dispatch hr hargs hne hf hconform =>
      exact ⟨_, _, _, _, hr, hargs, hne, hr.isType hcx hscope he, hf, hconform, rfl⟩

theorem covers_guard (hscope : cx.Covers scope.lookup) {x guard : Name}
    (hfit : cx.GuardFits x guard) : cx.Covers (Context.bind scope x guard).lookup :=
  covers_bind hscope hfit.2.2 (.inr (Hierarchy.has_iff.mp hfit.2.1))

/-- A narrower join before branches makes the join after them narrower. -/
theorem AcceptsBranches.keeps (hcx : cx.Narrowable) (hscope : cx.Covers scope.lookup)
    {bs bs' : List Branch} {guards : List Name} {b b' : Name} {u : Option Name}
    (hb : cx.Keeps test? b' b) (hbs : Branch.allComplete bs = true)
    (h : AcceptsBranches cx scope guards (some b) bs (bs', u)) :
    ∃ v v', u = some v ∧ AcceptsBranches cx scope guards (some b') bs (bs', some v') ∧
      cx.Keeps test? v' v := by
  induction bs generalizing guards b b' bs' with
  | nil =>
      cases h
      exact ⟨b, b', rfl, .nil, hb⟩
  | cons branch bs ih =>
      obtain ⟨span, x, guard, body⟩ := branch
      rw [Branch.allComplete, Bool.and_eq_true] at hbs
      cases h with
      | cons hnew hfit hbody hrest =>
          have hbound := covers_guard hscope hfit
          have ht := hbody.isType hcx.toProper hbound hbs.1
          obtain ⟨v, v', hv, hrest', hk⟩ := ih (hcx.keeps_join hb (.refl ht)) hbs.2 hrest
          exact ⟨v, v', hv, .cons hnew hfit hbody hrest', hk⟩

/-- A variable that is bound nowhere is the mistake. -/
theorem recovers_object (hcx : cx.Proper) {y : Name} (hy : scope.lookup y = none) (x : Name) :
    Recovers cx scope (.object m x) (.object m y) ⟨m.span, .undefinedVariable y⟩ none := by
  intro r hscope he haccepts
  have ht := haccepts.isType hcx hscope he
  have htyped : Silent (typed m .errType fun m => .object m y)
      (.object { m with type := .errType } y, .errType) := (Decides.typed _ _ _).silent rfl
  rw [check, hy]
  exact ⟨_, [], (Records.report _ _).bind htyped.records, .inl rfl, .errType ht⟩

namespace Recovers

section

variable (hcx : cx.Narrowable) (h : Recovers cx scope e e' mistake test?)

include hcx h

theorem all (hscope : cx.Covers scope.lookup) {before after : List Expr}
    {rs : List (Expr × Name)} (hes : Expr.allComplete (before ++ e :: after) = true)
    (haccepts : AcceptsAll cx scope (before ++ e :: after) rs) :
    Stumbles (checkAll cx scope (before ++ e' :: after)) mistake test?
      (fun rs' => List.Forall₂ (fun r' r => cx.Keeps test? r'.2 r.2) rs' rs) := by
  induction before generalizing rs with
  | nil =>
      rw [List.nil_append, Expr.allComplete, Bool.and_eq_true] at hes
      cases haccepts with
      | cons he hafter =>
          rw [List.nil_append, checkAll]
          refine (h hscope hes.1 he).bind fun r' hr' => ?_
          refine ((decides_checkAll cx scope after).silent hafter).passes (.pure (.cons hr' ?_))
          exact List.forall₂_same.mpr fun r hr =>
            .refl (hafter.isType hcx.toProper hscope hes.2 r hr)
  | cons e₀ before ih =>
      rw [List.cons_append, Expr.allComplete, Bool.and_eq_true] at hes
      cases haccepts with
      | cons he hrest =>
          have ht := he.isType hcx.toProper hscope hes.1
          rw [List.cons_append, checkAll]
          refine ((decides_check cx scope e₀).silent he).stumbles ?_
          exact (ih hes.2 hrest).bind fun rs' hrs' => .pure (.cons (.refl ht) hrs')

theorem block (before after : List Expr) :
    Recovers cx scope (.block m (before ++ e :: after)) (.block m (before ++ e' :: after)) mistake
      test? := by
  intro r hscope he haccepts
  rw [Expr.isComplete] at he
  cases haccepts with
  | block hbody =>
      rw [check]
      exact (all hcx h hscope he hbody).bind fun rs' hrs' => .typed (hcx.keeps_lastType hrs')

theorem assign (x : Name) :
    Recovers cx scope (.assign m x e) (.assign m x e') mistake test? := by
  intro r hscope he haccepts
  rw [Expr.isComplete] at he
  cases haccepts with
  | assign hvalue hself hx hc =>
      rw [check]
      refine (h hscope he hvalue).bind fun ⟨value, t⟩ hr' => ?_
      dsimp only
      rw [if_neg hself, hx]
      dsimp only
      rw [if_pos (hcx.conforms hr' (hscope _ _ hx) hc)]
      exact .typed hr'

theorem receiver (x : Name) (args : List Expr) :
    Recovers cx scope (.dispatch m e x args) (.dispatch m e' x args) mistake test? := by
  intro r hscope he haccepts
  rw [Expr.isComplete, Bool.and_eq_true] at he
  obtain ⟨e₁, t, rs, f, hr, hargs, -, ht, hf, hconform, hcall⟩ :=
    haccepts.call hcx.toProper hscope he.1
  obtain ⟨hoffers, -⟩ := (hcx.method?_eq_some_iff ht).mp hf
  rw [check, hcall]
  refine (h hscope he.1 hr).bind fun ⟨e₂, t'⟩ hr' => ?_
  dsimp only at hr' ⊢
  refine ((decides_checkAll cx scope args).silent hargs).passes ?_
  rcases hr'.narrows with rfl | hnarrow
  · -- nothing is looked up for an ill-typed receiver, and the call is ill-typed as well
    obtain rfl := hcx.test?_eq_none hr'
    rw [if_pos rfl]
    exact .typed (.errType (hcx.isType_callType ht ht hoffers))
  · obtain ⟨g, hg, hparams, hresult⟩ := hcx.exists_method? ht hnarrow hf
    rw [if_neg (hcx.ne_errType hnarrow.isType_left), hg]
    have hconform' := hconform.of_types hparams
    refine ((cx.decides_checkCall g t' m.span rs).silent (a := ()) hconform').passes ?_
    exact .typed (hr'.callType (hcx.seenMethod ht hoffers).result_typed hresult)

theorem argument (e₀ : Expr) (x : Name) (before after : List Expr) :
    Recovers cx scope (.dispatch m e₀ x (before ++ e :: after))
      (.dispatch m e₀ x (before ++ e' :: after)) mistake test? := by
  intro r hscope he haccepts
  rw [Expr.isComplete, Bool.and_eq_true] at he
  obtain ⟨e₁, t, rs, f, hr, hargs, hne, ht, hf, hconform, hcall⟩ :=
    haccepts.call hcx.toProper hscope he.1
  obtain ⟨hoffers, -⟩ := (hcx.method?_eq_some_iff ht).mp hf
  rw [check, hcall]
  refine ((decides_check cx scope e₀).silent hr).stumbles ?_
  dsimp only
  refine (all hcx h hscope he.2 hargs).bind fun rs' hrs' => ?_
  rw [if_neg hne, hf]
  refine ((cx.decides_checkCall f t m.span rs').silent (a := ()) ?_).passes ?_
  · exact hcx.argumentsConform (hcx.seenMethod ht hoffers).params_typed hrs' hconform
  · exact .typed (.refl (hcx.isType_callType ht ht hoffers))

theorem staticReceiver (c x : Name) (args : List Expr) :
    Recovers cx scope (.staticDispatch m e c x args) (.staticDispatch m e' c x args) mistake
      test? := by
  intro r hscope he haccepts
  rw [Expr.isComplete, Bool.and_eq_true] at he
  cases haccepts with
  | staticDispatch hr hargs hself hhas hc hf hconform =>
      have htarget : cx.IsType c := .inr (Hierarchy.has_iff.mp hhas)
      obtain ⟨hoffers, -⟩ := (hcx.method?_eq_some_iff htarget).mp hf
      rw [check]
      refine (h hscope he.1 hr).bind fun ⟨e₂, t'⟩ hr' => ?_
      dsimp only at hr' ⊢
      refine ((decides_checkAll cx scope args).silent hargs).passes ?_
      rw [if_neg hself, if_pos hhas, hf]
      refine ((Decides.require _ _ _).silent (a := ()) (hcx.conforms hr' htarget hc)).passes ?_
      refine ((cx.decides_checkCall _ c m.span _).silent (a := ()) hconform).passes ?_
      exact .typed (hr'.callType (hcx.seenMethod htarget hoffers).result_typed rfl)

theorem staticArgument (e₀ : Expr) (c x : Name) (before after : List Expr) :
    Recovers cx scope (.staticDispatch m e₀ c x (before ++ e :: after))
      (.staticDispatch m e₀ c x (before ++ e' :: after)) mistake test? := by
  intro r hscope he haccepts
  have ht := haccepts.isType hcx.toProper hscope he
  rw [Expr.isComplete, Bool.and_eq_true] at he
  cases haccepts with
  | staticDispatch hr hargs hself hhas hc hf hconform =>
      have htarget : cx.IsType c := .inr (Hierarchy.has_iff.mp hhas)
      obtain ⟨hoffers, -⟩ := (hcx.method?_eq_some_iff htarget).mp hf
      rw [check]
      refine ((decides_check cx scope e₀).silent hr).stumbles ?_
      dsimp only
      refine (all hcx h hscope he.2 hargs).bind fun rs' hrs' => ?_
      rw [if_neg hself, if_pos hhas, hf]
      refine ((Decides.require _ _ _).silent (a := ()) hc).passes ?_
      refine ((cx.decides_checkCall _ c m.span rs').silent (a := ()) ?_).passes (.typed (.refl ht))
      exact hcx.argumentsConform (hcx.seenMethod htarget hoffers).params_typed hrs' hconform

theorem condPred (e₁ e₂ : Expr) :
    Recovers cx scope (.cond m e e₁ e₂) (.cond m e' e₁ e₂) mistake test? := by
  intro r hscope he haccepts
  have ht := haccepts.isType hcx.toProper hscope he
  simp only [Expr.isComplete, Bool.and_eq_true] at he
  cases haccepts with
  | cond hp hbool h₁ h₂ =>
      rw [check]
      refine (h hscope he.1.1 hp).bind fun ⟨p', t'⟩ hp' => ?_
      dsimp only at hp' ⊢
      refine ((Decides.require _ _ _).silent (a := ()) (hcx.isOr hp' rfl hbool)).passes ?_
      refine ((decides_check cx scope e₁).silent h₁).passes ?_
      exact ((decides_check cx scope e₂).silent h₂).passes (.typed (.refl ht))

theorem onTrue (e₀ e₂ : Expr) :
    Recovers cx scope (.cond m e₀ e e₂) (.cond m e₀ e' e₂) mistake test? := by
  intro r hscope he haccepts
  simp only [Expr.isComplete, Bool.and_eq_true] at he
  cases haccepts with
  | cond hp hbool h₁ h₂ =>
      have ht₂ := h₂.isType hcx.toProper hscope he.2
      rw [check]
      refine ((decides_check cx scope e₀).silent hp).stumbles ?_
      refine ((Decides.require _ _ _).silent (a := ()) hbool).stumbles ?_
      refine (h hscope he.1.2 h₁).bind fun ⟨e₁', t'⟩ hr' => ?_
      refine ((decides_check cx scope e₂).silent h₂).passes ?_
      exact .typed (hcx.keeps_join hr' (.refl ht₂))

theorem onFalse (e₀ e₁ : Expr) :
    Recovers cx scope (.cond m e₀ e₁ e) (.cond m e₀ e₁ e') mistake test? := by
  intro r hscope he haccepts
  simp only [Expr.isComplete, Bool.and_eq_true] at he
  cases haccepts with
  | cond hp hbool h₁ h₂ =>
      have ht₁ := h₁.isType hcx.toProper hscope he.1.2
      rw [check]
      refine ((decides_check cx scope e₀).silent hp).stumbles ?_
      refine ((Decides.require _ _ _).silent (a := ()) hbool).stumbles ?_
      refine ((decides_check cx scope e₁).silent h₁).stumbles ?_
      exact (h hscope he.2 h₂).bind fun r' hr' => .typed (hcx.keeps_join (.refl ht₁) hr')

theorem loopPred (e₁ : Expr) :
    Recovers cx scope (.loop m e e₁) (.loop m e' e₁) mistake test? := by
  intro r hscope he haccepts
  have ht := haccepts.isType hcx.toProper hscope he
  simp only [Expr.isComplete, Bool.and_eq_true] at he
  cases haccepts with
  | loop hp hbool hbody =>
      rw [check]
      refine (h hscope he.1 hp).bind fun ⟨p', t'⟩ hp' => ?_
      dsimp only at hp' ⊢
      refine ((Decides.require _ _ _).silent (a := ()) (hcx.isOr hp' rfl hbool)).passes ?_
      exact ((decides_check cx scope e₁).silent hbody).passes (.typed (.refl ht))

theorem loopBody (e₀ : Expr) :
    Recovers cx scope (.loop m e₀ e) (.loop m e₀ e') mistake test? := by
  intro r hscope he haccepts
  have ht := haccepts.isType hcx.toProper hscope he
  simp only [Expr.isComplete, Bool.and_eq_true] at he
  cases haccepts with
  | loop hp hbool hbody =>
      rw [check]
      refine ((decides_check cx scope e₀).silent hp).stumbles ?_
      refine ((Decides.require _ _ _).silent (a := ()) hbool).stumbles ?_
      exact (h hscope he.2 hbody).bind fun r' hr' => .typed (.refl ht)

theorem scrutinee (bs : List Branch) :
    Recovers cx scope (.caseOf m e bs) (.caseOf m e' bs) mistake test? := by
  intro r hscope he haccepts
  have ht := haccepts.isType hcx.toProper hscope he
  simp only [Expr.isComplete, Bool.and_eq_true] at he
  cases haccepts with
  | caseOf hs hbs =>
      rw [check]
      refine (h hscope he.1.1 hs).bind fun r' hr' => ?_
      exact ((decides_checkBranches cx scope [] none bs).silent hbs).passes (.typed (.refl ht))

theorem letInit (habsent : e.isAbsent = false) (x t : Name) (e₁ : Expr) :
    Recovers cx scope (.letIn m x t e e₁) (.letIn m x t e' e₁) mistake test? := by
  intro r hscope he haccepts
  have htype := haccepts.isType hcx.toProper hscope he
  simp only [Expr.isComplete, habsent, Bool.false_or, Bool.and_eq_true] at he
  cases haccepts with
  | letIn hinit hfit hbody =>
      obtain ⟨hdefined, hc, hself⟩ := hfit
      rw [hinit.isAbsent_eq, habsent] at hc
      rw [check]
      refine (h hscope he.1 hinit).bind fun ⟨e₀', t'⟩ hr' => ?_
      dsimp only at hr' ⊢
      have hc' := hcx.conforms hr' (typeDefined_iff.mp hdefined) (hc.resolve_left nofun)
      have hfit' : cx.LetFits x t e₀' t' := ⟨hdefined, .inr hc', hself⟩
      refine ((cx.decides_checkLet m.span x t e₀' t').silent (a := ()) hfit').passes ?_
      exact ((decides_check cx _ e₁).silent hbody).passes (.typed (.refl htype))

end

section

variable {x t : Name} (h : Recovers cx (Context.bind scope x t) e e' mistake test?)

include h

theorem letBody (e₀ : Expr) :
    Recovers cx scope (.letIn m x t e₀ e) (.letIn m x t e₀ e') mistake test? := by
  intro r hscope he haccepts
  simp only [Expr.isComplete, Bool.and_eq_true] at he
  cases haccepts with
  | letIn hinit hfit hbody =>
      have hbound := covers_bind hscope hfit.2.2 (typeDefined_iff.mp hfit.1)
      rw [check]
      refine ((decides_check cx scope e₀).silent hinit).stumbles ?_
      refine ((cx.decides_checkLet m.span x t _ _).silent (a := ()) hfit).stumbles ?_
      exact (h hbound he.2 hbody).bind fun r' hr' => .typed hr'

/-- The induction is on the branches before the one with the mistake, which extend the guards and
the join that it starts from. -/
theorem branches (hcx : cx.Narrowable) (hscope : cx.Covers scope.lookup)
    {before after : List Branch} {span : Span} {guards : List Name} {b : Option Name}
    {r : List Branch × Option Name} (hb : ∀ u, b = some u → cx.IsType u)
    (hbs : Branch.allComplete (before ++ .mk span x t e :: after) = true)
    (haccepts : AcceptsBranches cx scope guards b (before ++ .mk span x t e :: after) r) :
    ∃ v, r.2 = some v ∧
      Stumbles (checkBranches cx scope guards b (before ++ .mk span x t e' :: after)) mistake test?
        (fun r' => ∃ v', r'.2 = some v' ∧ cx.Keeps test? v' v) := by
  induction before generalizing guards b r with
  | nil =>
      rw [List.nil_append, Branch.allComplete, Bool.and_eq_true] at hbs
      cases haccepts with
      | cons hnew hfit hbody hafter =>
          have hbound := covers_guard hscope hfit
          have ht := hbody.isType hcx.toProper hbound hbs.1
          have hsame : cx.Keeps test? (cx.joinAfter b _) (cx.joinAfter b _) :=
            .refl (hcx.isType_joinAfter hb ht)
          obtain ⟨v, -, hv, -⟩ := hafter.keeps hcx hscope hsame hbs.2
          refine ⟨v, hv, ?_⟩
          rw [List.nil_append, checkBranches, if_neg hnew]
          refine ((cx.decides_checkGuard span x t).silent (a := ()) hfit).stumbles ?_
          refine (h hbound hbs.1 hbody).bind fun ⟨body', t'⟩ hr' => ?_
          dsimp only at hr' ⊢
          obtain ⟨v₁, v', hv₁, hafter', hk⟩ :=
            hafter.keeps hcx hscope (hcx.keeps_joinAfter hb hr') hbs.2
          -- what the accepted branches have for their join does not depend on the mistake
          cases hv.symm.trans hv₁
          refine ((decides_checkBranches cx scope _ _ after).silent hafter').passes ?_
          exact .pure ⟨v', rfl, hk⟩
  | cons branch before ih =>
      obtain ⟨span₀, x₀, t₀, e₀⟩ := branch
      rw [List.cons_append, Branch.allComplete, Bool.and_eq_true] at hbs
      cases haccepts with
      | cons hnew hfit hbody hrest =>
          have hbound := covers_guard hscope hfit
          have ht := hbody.isType hcx.toProper hbound hbs.1
          have hjoin := hcx.isType_joinAfter hb ht
          obtain ⟨v, hv, hstumbles⟩ := ih (fun u hu => Option.some.inj hu ▸ hjoin) hbs.2 hrest
          refine ⟨v, hv, ?_⟩
          rw [List.cons_append, checkBranches, if_neg hnew]
          refine ((cx.decides_checkGuard span₀ x₀ t₀).silent (a := ()) hfit).stumbles ?_
          refine ((decides_check cx _ e₀).silent hbody).stumbles ?_
          exact hstumbles.bind fun r' hr' => .pure hr'

theorem branch (hcx : cx.Narrowable) (e₀ : Expr) (before : List Branch) (span : Span)
    (after : List Branch) :
    Recovers cx scope (.caseOf m e₀ (before ++ .mk span x t e :: after))
      (.caseOf m e₀ (before ++ .mk span x t e' :: after)) mistake test? := by
  intro r hscope he haccepts
  simp only [Expr.isComplete, Bool.and_eq_true] at he
  cases haccepts with
  | caseOf hs hbs =>
      obtain ⟨v, hv, hstumbles⟩ := branches h hcx hscope (b := none) nofun he.2 hbs
      dsimp only at hv
      subst hv
      rw [check]
      refine ((decides_check cx scope e₀).silent hs).stumbles ?_
      refine hstumbles.bind fun ⟨bs', u'⟩ ⟨v', hv', hk⟩ => .typed ?_
      dsimp only at hv'
      subst hv'
      exact hk

end

/-! ### Operators -/

/-- Integers that may have become ill-typed are still operands, and so are the operands of an
equality test that have kept their types. -/
theorem operandsFit (hcx : cx.Narrowable) {op : BinaryOp} {t t' u u' : Name}
    (ht : cx.Keeps test? t' t) (hu : cx.Keeps test? u' u)
    (htest : op = .eq → test?.isSome = true) (hfit : Context.OperandsFit op t u) :
    Context.OperandsFit op t' u' := by
  by_cases hop : op = .eq
  · rwa [ht.exact (htest hop), hu.exact (htest hop)]
  · rw [Context.OperandsFit, if_neg hop] at hfit ⊢
    exact ⟨hcx.isOr ht rfl hfit.1, hcx.isOr hu rfl hfit.2⟩

/-- Only an equality test says anything about operands one of which holds a mistake. -/
theorem operands (hcx : cx.Narrowable) {op : BinaryOp} {t t' u u' : Name}
    {f : Unit → Recording (Expr × Name)} {P : Expr × Name → Prop} (ht : cx.Keeps test? t' t)
    (hu : cx.Keeps test? u' u) (hfit : Context.OperandsFit op t u) (hf : Passes (f ()) P) :
    Tests (Context.checkOperands m.span op t' u' >>= f)
      (if op = .eq then some m.span else none) test? P := by
  obtain ⟨r, hr, hp⟩ := hf
  by_cases hfit' : Context.OperandsFit op t' u'
  · have hsilent := (Context.decides_checkOperands m.span op t' u').silent (a := ()) hfit'
    exact ⟨r, [], (hsilent.bind hr).records, .inl rfl, fun _ => rfl, hp⟩
  · -- only the rule for equality can break, and only if the operands have no test of their own
    have hop : op = .eq := by
      by_contra hop
      exact hfit' (operandsFit hcx ht hu (absurd · hop) hfit)
    have htest : ¬ test?.isSome = true := fun htest =>
      hfit' (operandsFit hcx ht hu (fun _ => htest) hfit)
    subst hop
    rw [Context.OperandsFit, if_pos rfl] at hfit'
    rw [Context.checkOperands, if_pos rfl, if_pos rfl, require, if_neg (by simpa using hfit')]
    exact ⟨r, _, (Records.report _ _).bind hr.records, .inr ⟨m.span, t', u', rfl, rfl⟩,
      (absurd · htest), hp⟩

section

variable (hcx : cx.Narrowable) (h : Recovers cx scope e e' mistake test?)

include hcx h

theorem left (op : BinaryOp) (e₂ : Expr) :
    Recovers cx scope (.binary m op e e₂) (.binary m op e' e₂) mistake
      (test?.or (if op = .eq then some m.span else none)) := by
  intro r hscope he haccepts
  have htype := haccepts.isType hcx.toProper hscope he
  simp only [Expr.isComplete, Bool.and_eq_true] at he
  cases haccepts with
  | binary h₁ h₂ hfit =>
      have hu := h₂.isType hcx.toProper hscope he.2
      rw [check]
      refine (h hscope he.1 h₁).bind_test fun ⟨e₁, t'⟩ ht => ?_
      refine ((decides_check cx scope e₂).silent h₂).tests ?_
      exact operands hcx ht (.refl hu) hfit (.typed (.refl htype))

theorem right (op : BinaryOp) (e₁ : Expr) :
    Recovers cx scope (.binary m op e₁ e) (.binary m op e₁ e') mistake
      (test?.or (if op = .eq then some m.span else none)) := by
  intro r hscope he haccepts
  have htype := haccepts.isType hcx.toProper hscope he
  simp only [Expr.isComplete, Bool.and_eq_true] at he
  cases haccepts with
  | binary h₁ h₂ hfit =>
      have ht := h₁.isType hcx.toProper hscope he.1
      rw [check]
      refine ((decides_check cx scope e₁).silent h₁).stumbles ?_
      refine (h hscope he.2 h₂).bind_test fun ⟨e₂, u'⟩ hu => ?_
      exact operands hcx (.refl ht) hu hfit (.typed (.refl htype))

theorem operand (op : UnaryOp) :
    Recovers cx scope (.unary m op e) (.unary m op e') mistake test? := by
  intro r hscope he haccepts
  have htype := haccepts.isType hcx.toProper hscope he
  simp only [Expr.isComplete] at he
  cases haccepts with
  | unary ho hfit =>
      rw [check]
      refine (h hscope he ho).bind fun ⟨e₁, t'⟩ ht => ?_
      have hfit' : Context.OperandFits op t' :=
        ⟨fun hop => hcx.isOr ht rfl (hfit.1 hop), fun hop => hcx.isOr ht rfl (hfit.2 hop)⟩
      refine ((Context.decides_checkOperand m.span op t').silent (a := ()) hfit').passes ?_
      exact .typed (.refl htype)

end

end Recovers

/-! ## Paths -/

/-- The scope of what a frame leaves open. -/
def frameScope (scope : Scope Name Name) : Frame → Scope Name Name
  | .branch _ _ _ _ x t _ | .letBody _ x t _ => Context.bind scope x t
  | _ => scope

theorem lookup_frameScope {f : Frame} {y : Name} (hf : f.bound? ≠ some y)
    (hy : scope.lookup y = none) : (frameScope scope f).lookup y = none := by
  have hbind : ∀ {x : Name} (t : Name), some x ≠ some y →
      (Context.bind scope x t).lookup y = none := by
    intro x t hx
    have hne : ¬ y = x := fun heq => hx (congrArg some heq.symm)
    rw [Context.bind]
    split
    · exact hy
    · rw [Scope.lookup_enterWith_singleton, if_neg hne, hy]
  cases f with
  | branch m e₀ before span x t after => exact hbind t hf
  | letBody m x t e₀ => exact hbind t hf
  | _ => exact hy

/-- Every frame recovers from a mistake in what it leaves open. -/
theorem Recovers.fill (hcx : cx.Narrowable) (f : Frame) (habsent : e.isAbsent = false)
    (h : Recovers cx (frameScope scope f) e e' mistake test?) :
    Recovers cx scope (f.fill e) (f.fill e') mistake (test?.or f.test?) := by
  have hquiet (hf : f.test? = none)
      (hfill : Recovers cx scope (f.fill e) (f.fill e') mistake test?) :
      Recovers cx scope (f.fill e) (f.fill e') mistake (test?.or f.test?) := by
    rwa [hf, Option.or_none]
  cases f with
  | block m before after => exact hquiet rfl (block hcx h before after)
  | assign m x => exact hquiet rfl (assign hcx h x)
  | receiver m x args => exact hquiet rfl (receiver hcx h x args)
  | argument m e₀ x before after => exact hquiet rfl (argument hcx h e₀ x before after)
  | staticReceiver m c x args => exact hquiet rfl (staticReceiver hcx h c x args)
  | staticArgument m e₀ c x before after =>
      exact hquiet rfl (staticArgument hcx h e₀ c x before after)
  | condPred m e₁ e₂ => exact hquiet rfl (condPred hcx h e₁ e₂)
  | onTrue m e₀ e₂ => exact hquiet rfl (onTrue hcx h e₀ e₂)
  | onFalse m e₀ e₁ => exact hquiet rfl (onFalse hcx h e₀ e₁)
  | loopPred m e₁ => exact hquiet rfl (loopPred hcx h e₁)
  | loopBody m e₀ => exact hquiet rfl (loopBody hcx h e₀)
  | scrutinee m bs => exact hquiet rfl (scrutinee hcx h bs)
  | branch m e₀ before span x t after => exact hquiet rfl (branch h hcx e₀ before span after)
  | letInit m x t e₁ => exact hquiet rfl (letInit hcx h habsent x t e₁)
  | letBody m x t e₀ => exact hquiet rfl (letBody h e₀)
  | left m op e₂ => exact left hcx h op e₂
  | right m op e₁ => exact right hcx h op e₁
  | operand m op => exact hquiet rfl (operand hcx h op)

/-- However deep a variable stands, the expressions around it recover from its name being one that
none of them binds. The induction is on the frames from the outside to the inside, which extend the
scope. -/
theorem recovers_within (hcx : cx.Narrowable) {y : Name} (path : List Frame)
    (hpath : ∀ f ∈ path, f.bound? ≠ some y) (hy : scope.lookup y = none) (x : Name) :
    Recovers cx scope (Expr.within path (.object m x)) (Expr.within path (.object m y))
      ⟨m.span, .undefinedVariable y⟩ (innermostTest? path) := by
  induction path generalizing scope with
  | nil => exact recovers_object hcx.toProper hy x
  | cons f path ih =>
      obtain ⟨hf, hrest⟩ := List.forall_mem_cons.mp hpath
      exact .fill hcx f (Expr.within_isAbsent rfl path) (ih hrest (lookup_frameScope hf hy))

/-! ## Features -/

/-- The scope of the expression of a feature. -/
def featureScope (scope : Scope Name Name) : Feature → Scope Name Name
  | .method m => methodScope scope m.formals
  | .attr _ => scope.enterWith [(.self, .selfType)]

/-- Neither the result of a method nor the type of an attribute gives rise to another report. -/
theorem Recovers.feature (hcx : cx.Narrowable) {f : Feature}
    (h : Recovers cx (featureScope scope f) e e' mistake test?)
    (hscope : cx.Covers (featureScope scope f).lookup) (he : e.isComplete = true)
    (htype : ∀ a, f = .attr a → cx.IsType a.type) {g : Feature}
    (haccepts : AcceptsFeature cx scope (f.withExpr e) g) :
    Stumbles (checkFeature cx scope (f.withExpr e')) mistake test? (fun _ => True) := by
  cases f with
  | method m =>
      cases haccepts with
      | method hbody hresult =>
          simp only [Feature.withExpr, checkFeature, checkMethod, bind_assoc]
          refine (h hscope he hbody).bind fun r' ht => ?_
          obtain ⟨body, t⟩ := r'
          refine Silent.passes (a := ()) ((Decides.require _ _ _).silent ?_) (.pure trivial)
          cases hdefined : cx.members.typeDefined m.result with
          | false => rfl
          | true => exact hcx.conforms ht (typeDefined_iff.mp hdefined) (hresult hdefined)
  | attr a =>
      cases haccepts with
      | attr hinit hfit =>
          simp only [Feature.withExpr, checkFeature, checkAttribute, bind_assoc]
          refine (h hscope he hinit).bind fun r' ht => ?_
          obtain ⟨init, t⟩ := r'
          refine Silent.passes (a := ()) ((Decides.require _ _ _).silent ?_) (.pure trivial)
          have hthere : e.isAbsent = false := Expr.not_isAbsent he
          rw [hinit.isAbsent_eq, hthere] at hfit
          have hc := hcx.conforms ht (htype a rfl) (hfit.resolve_left Bool.false_ne_true)
          rw [hc, Bool.or_true]

/-- The parts before and after the one with the mistake have nothing to say. The induction is on the
parts before. -/
theorem Stumbles.mapM {f : α → Recording β} {R : α → β → Prop} (hf : ∀ a, Decides (f a) (R a))
    {before after : List α} {a a' : α} {bs : List β}
    (haccepts : List.Forall₂ R (before ++ a :: after) bs)
    (ha : ∀ b, R a b → Stumbles (f a') mistake test? (fun _ => True)) :
    Stumbles ((before ++ a' :: after).mapM f) mistake test? (fun _ => True) := by
  induction before generalizing bs with
  | nil =>
      cases haccepts with
      | cons hb hafter =>
          rw [List.nil_append, List.mapM_cons]
          refine (ha _ hb).bind fun _ _ => ?_
          exact ((Decides.mapM hf after).silent hafter).passes (.pure trivial)
  | cons a₀ before ih =>
      cases haccepts with
      | cons hb hrest =>
          rw [List.cons_append, List.mapM_cons]
          refine ((hf a₀).silent hb).stumbles ?_
          exact (ih hrest).bind fun _ _ => .pure trivial

end Cool.Typing
