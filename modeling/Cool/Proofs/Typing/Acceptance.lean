import Cool.Typing.Check
import Mathlib.Data.List.Forall2

/-! What checking lets pass. Every check either reports something, and then the report stays, or it
returns silently with the tree and type that a derivation of `Accepts` describes. -/

namespace Cool.Typing

variable {α β : Type}

/-! ## Silent and reported runs -/

/-- A run only adds to what was reported, and a halt is final. -/
def Grows (x : Recording α) : Prop :=
  ∀ j : Journal, j.reports.length ≤ (x.run j).2.reports.length ∧
    (j.halted = true → (x.run j).2.halted = true)

/-- A run that returns a value and records nothing. -/
def Silent (x : Recording α) (a : α) : Prop :=
  ∀ j : Journal, j.halted = false → x.run j = (a, j)

/-- A run that records a report or halts. -/
def Reported (x : Recording α) : Prop :=
  ∀ j : Journal, j.halted = false →
    (x.run j).2.halted = true ∨ j.reports.length < (x.run j).2.reports.length

theorem Grows.pure (a : α) : Grows (pure a) :=
  fun _ => ⟨Nat.le_refl _, id⟩

theorem Grows.bind {x : Recording α} {f : α → Recording β} (hx : Grows x)
    (hf : ∀ a, Grows (f a)) : Grows (x >>= f) := by
  intro j
  obtain ⟨hlen, hhalt⟩ := hx j
  obtain ⟨hlen', hhalt'⟩ := hf (x.run j).1 (x.run j).2
  exact ⟨Nat.le_trans hlen hlen', fun h => hhalt' (hhalt h)⟩

theorem Silent.pure (a : α) : Silent (pure a) a :=
  fun _ _ => rfl

theorem Silent.bind {x : Recording α} {f : α → Recording β} {a : α} {b : β}
    (hx : Silent x a) (hf : Silent (f a) b) : Silent (x >>= f) b := by
  intro j hj
  rw [StateT.run_bind, hx j hj]
  exact hf j hj

theorem Reported.bind {x : Recording α} {f : α → Recording β} (hx : Reported x)
    (hf : ∀ a, Grows (f a)) : Reported (x >>= f) := by
  intro j hj
  obtain ⟨hlen, hhalt⟩ := hf (x.run j).1 (x.run j).2
  rcases hx j hj with hx | hx
  · exact Or.inl (hhalt hx)
  · exact Or.inr (Nat.lt_of_lt_of_le hx hlen)

theorem Silent.bind_reported {x : Recording α} {f : α → Recording β} {a : α}
    (hx : Silent x a) (hf : Reported (f a)) : Reported (x >>= f) := by
  intro j hj
  rw [StateT.run_bind, hx j hj]
  exact hf j hj

theorem report_run (span : Span) (problem : Problem) (j : Journal) :
    (report span problem).run j =
      ((), if j.halted then j else { j with reports := j.reports ++ [⟨span, problem⟩] }) :=
  rfl

theorem typed_run (m : Mark) (t : Name) (form : Mark → Expr) (j : Journal) :
    (typed m t form).run j = ((form (if j.halted then m else { m with type := t }), t), j) :=
  rfl

/-- A check with an outcome of its own: it is silent exactly with the values of a property, and
leaves a trace where there is none. -/
structure Decides (x : Recording α) (P : α → Prop) : Prop where
  grows : Grows x
  silent : ∀ {a : α}, P a → Silent x a
  reported : (∀ a : α, ¬ P a) → Reported x

namespace Decides

theorem congr {x : Recording α} {P Q : α → Prop} (hx : Decides x P) (hpq : ∀ a, P a ↔ Q a) :
    Decides x Q :=
  ⟨hx.grows, fun hq => hx.silent ((hpq _).mpr hq),
    fun hq => hx.reported fun a hp => hq a ((hpq a).mp hp)⟩

/-- A run with one silent outcome decides a property that holds of that outcome alone. -/
theorem of_unique {x : Recording α} {a : α} {P : α → Prop} (hx : Decides x (a = ·)) (ha : P a)
    (honly : ∀ b, P b → a = b) : Decides x P :=
  hx.congr fun b => ⟨fun h => h ▸ ha, honly b⟩

theorem bind {x : Recording α} {f : α → Recording β} {P : α → Prop} {Q : α → β → Prop}
    (hx : Decides x P) (hf : ∀ a, Decides (f a) (Q a)) :
    Decides (x >>= f) (fun b => ∃ a, P a ∧ Q a b) := by
  refine ⟨hx.grows.bind fun a => (hf a).grows, ?_, ?_⟩
  · rintro b ⟨a, hp, hq⟩
    exact (hx.silent hp).bind ((hf a).silent hq)
  · intro hnone
    by_cases hp : ∃ a, P a
    · obtain ⟨a, hp⟩ := hp
      exact (hx.silent hp).bind_reported ((hf a).reported fun b hq => hnone b ⟨a, hp, hq⟩)
    · exact (hx.reported fun a ha => hp ⟨a, ha⟩).bind fun a => (hf a).grows

theorem pure (a : α) : Decides (pure a) (a = ·) :=
  ⟨.pure a, fun h => h ▸ .pure a, fun h => absurd rfl (h a)⟩

theorem typed (m : Mark) (t : Name) (form : Mark → Expr) :
    Decides (typed m t form) ((form { m with type := t }, t) = ·) := by
  refine ⟨fun _ => ⟨Nat.le_refl _, id⟩, ?_, fun h => absurd rfl (h _)⟩
  rintro _ rfl j hj
  rw [typed_run, hj]
  rfl

theorem report (span : Span) (problem : Problem) :
    Decides (report span problem) (fun _ => False) := by
  refine ⟨?_, False.elim, ?_⟩
  · intro j
    rw [report_run]
    cases hj : j.halted <;> simp [hj]
  · intro _ j hj
    rw [report_run, hj]
    simp

theorem halt : Decides halt (fun _ => False) :=
  ⟨fun _ => ⟨Nat.le_refl _, fun _ => rfl⟩, False.elim, fun _ _ _ => Or.inl rfl⟩

theorem illTyped (m : Mark) (problem : Problem) (form : Mark → Expr) :
    Decides (illTyped m problem form) (fun _ => False) :=
  ((report m.span problem).bind fun _ => typed m .errType form).congr (by simp)

theorem require (condition : Bool) (span : Span) (problem : Problem) :
    Decides (require condition span problem) (fun _ => condition = true) := by
  unfold Typing.require
  split
  · rename_i hc
    exact (pure ()).congr (by simp [hc])
  · rename_i hc
    exact (report span problem).congr (by simp [hc])

end Decides

namespace Context

/-- The arguments of a call conform to the parameters they are passed for. -/
def ArgumentsConform (cx : Context) (params : List Parameter) (args : List (Expr × Name)) : Prop :=
  List.Forall₂ (fun p arg => cx.conforms arg.2 p.type = true) params args

theorem decides_checkArguments (cx : Context) (i : Nat) {params : List Parameter}
    {args : List (Expr × Name)} (hlen : args.length = params.length) :
    Decides (cx.checkArguments i params args) (fun _ => cx.ArgumentsConform params args) := by
  induction params generalizing i args with
  | nil =>
      rw [List.eq_nil_of_length_eq_zero hlen]
      exact (Decides.pure ()).congr (by simp [ArgumentsConform])
  | cons p params ih =>
      cases args with
      | nil => cases hlen
      | cons arg args =>
          have hrest := ih (i + 1) (Nat.succ.inj hlen)
          rw [checkArguments]
          split
          · rename_i hc
            exact hrest.congr (by simp [ArgumentsConform, hc])
          · rename_i hc
            split
            · exact ((Decides.report _ _).bind fun _ => hrest).congr (by simp [ArgumentsConform, hc])
            · exact (Decides.halt.bind fun _ => hrest).congr (by simp [ArgumentsConform, hc])

theorem decides_checkCall (cx : Context) (m : MethodEntry) (owner : Name) (span : Span)
    (args : List (Expr × Name)) :
    Decides (cx.checkCall m owner span args) (fun _ => cx.ArgumentsConform m.params args) := by
  unfold checkCall
  split
  · rename_i hlen
    exact cx.decides_checkArguments 0 hlen
  · rename_i hlen
    exact (Decides.report _ _).congr fun _ => ⟨False.elim, fun hc => hlen hc.length_eq.symm⟩

/-- What the operands of a binary operator must be. Values of a builtin class are compared only
with values of that class; every operator but equality takes integers. -/
def OperandsFit (op : BinaryOp) (left right : Name) : Prop :=
  if op = .eq then
    (left = right ∨ left = .errType ∨ right = .errType) ∨
      ¬ (left.isPrimitive = true ∨ right.isPrimitive = true)
  else isOr .int left = true ∧ isOr .int right = true

theorem decides_checkOperands (span : Span) (op : BinaryOp) (left right : Name) :
    Decides (checkOperands span op left right) (fun _ => OperandsFit op left right) := by
  unfold checkOperands OperandsFit
  split
  · exact (Decides.require _ _ _).congr (by simp)
  · exact ((Decides.require _ _ _).bind fun _ => .require _ _ _).congr (by simp)

/-- What the operand of a unary operator must be. -/
def OperandFits (op : UnaryOp) (t : Name) : Prop :=
  (op = .neg → isOr .int t = true) ∧ (op = .comp → isOr .bool t = true)

theorem decides_checkOperand (span : Span) (op : UnaryOp) (t : Name) :
    Decides (checkOperand span op t) (fun _ => OperandFits op t) := by
  unfold checkOperand
  split
  · exact (Decides.require _ _ _).congr (by simp [OperandFits])
  · exact (Decides.require _ _ _).congr (by simp [OperandFits])
  · rename_i hneg hcomp
    exact (Decides.pure ()).congr (by simp_all [OperandFits])

/-- What the guard of a branch and its variable must be. -/
def GuardFits (cx : Context) (name guard : Name) : Prop :=
  guard ≠ .selfType ∧ cx.hierarchy.has guard = true ∧ name ≠ .self

theorem decides_checkGuard (cx : Context) (span : Span) (name guard : Name) :
    Decides (cx.checkGuard span name guard) (fun _ => cx.GuardFits name guard) := by
  unfold checkGuard
  split
  · rename_i hself
    exact ((Decides.report _ _).bind fun _ => .require _ _ _).congr (by simp [GuardFits, hself])
  · rename_i hself
    exact ((Decides.require _ _ _).bind fun _ => .require _ _ _).congr (by simp [GuardFits, hself])

/-- What a let expression may bind: a variable of a defined type, with an initializer that conforms
to it if there is one. -/
def LetFits (cx : Context) (name type : Name) (init : Expr) (t : Name) : Prop :=
  cx.members.typeDefined type = true ∧ (init.isAbsent = true ∨ cx.conforms t type = true) ∧
    name ≠ .self

theorem decides_checkLet (cx : Context) (span : Span) (name type : Name) (init : Expr) (t : Name) :
    Decides (cx.checkLet span name type init t) (fun _ => cx.LetFits name type init t) := by
  unfold checkLet
  split
  · rename_i hdef
    exact ((Decides.require _ _ _).bind fun _ => .require _ _ _).congr (by simp [LetFits, hdef])
  · rename_i hdef
    exact ((Decides.report _ _).bind fun _ => .require _ _ _).congr (by simp [LetFits, hdef])

end Context

/-! ## Acceptance -/

mutual

/-- The expressions that checking lets pass, with their annotated trees and their types. An absent
expression has a type of its own, and so has a case without branches. -/
inductive Accepts (cx : Context) : Scope Name Name → Expr → Expr × Name → Prop where
  | missing {scope} : Accepts cx scope .missing (.missing, .noType)
  | noExpr {scope m} : Accepts cx scope (.noExpr m) (.noExpr { m with type := .noType }, .noType)
  | block {scope m body rs} :
      AcceptsAll cx scope body rs →
      Accepts cx scope (.block m body)
        (.block { m with type := lastType rs } (rs.map (·.1)), lastType rs)
  | assign {scope m name value value' t expected} :
      Accepts cx scope value (value', t) → name ≠ .self → scope.lookup name = some expected →
      cx.conforms t expected = true →
      Accepts cx scope (.assign m name value) (.assign { m with type := t } name value', t)
  | dispatchIllTyped {scope m receiver receiver' method args rs} :
      Accepts cx scope receiver (receiver', .errType) → AcceptsAll cx scope args rs →
      Accepts cx scope (.dispatch m receiver method args)
        (.dispatch { m with type := .errType } receiver' method (rs.map (·.1)), .errType)
  | dispatch {scope m receiver receiver' t method args rs entry} :
      Accepts cx scope receiver (receiver', t) → AcceptsAll cx scope args rs → t ≠ .errType →
      cx.method? t method = some entry → cx.ArgumentsConform entry.params rs →
      Accepts cx scope (.dispatch m receiver method args)
        (.dispatch { m with type := Context.callType entry t } receiver' method (rs.map (·.1)),
          Context.callType entry t)
  | staticDispatch {scope m receiver receiver' t target method args rs entry} :
      Accepts cx scope receiver (receiver', t) → AcceptsAll cx scope args rs →
      target ≠ .selfType → cx.hierarchy.has target = true → cx.conforms t target = true →
      cx.method? target method = some entry → cx.ArgumentsConform entry.params rs →
      Accepts cx scope (.staticDispatch m receiver target method args)
        (.staticDispatch { m with type := Context.callType entry t } receiver' target method
          (rs.map (·.1)), Context.callType entry t)
  | cond {scope m pred pred' t onTrue onTrue' t₁ onFalse onFalse' t₂} :
      Accepts cx scope pred (pred', t) → Context.isOr .bool t = true →
      Accepts cx scope onTrue (onTrue', t₁) → Accepts cx scope onFalse (onFalse', t₂) →
      Accepts cx scope (.cond m pred onTrue onFalse)
        (.cond { m with type := cx.join t₁ t₂ } pred' onTrue' onFalse', cx.join t₁ t₂)
  | loop {scope m pred pred' t body body' u} :
      Accepts cx scope pred (pred', t) → Context.isOr .bool t = true →
      Accepts cx scope body (body', u) →
      Accepts cx scope (.loop m pred body) (.loop { m with type := .object } pred' body', .object)
  | caseOf {scope m scrutinee scrutinee' t branches branches' u} :
      Accepts cx scope scrutinee (scrutinee', t) →
      AcceptsBranches cx scope [] none branches (branches', u) →
      Accepts cx scope (.caseOf m scrutinee branches)
        (.caseOf { m with type := u.getD .noType } scrutinee' branches', u.getD .noType)
  | letIn {scope m name type init init' t body body' u} :
      Accepts cx scope init (init', t) → cx.LetFits name type init' t →
      Accepts cx (Context.bind scope name type) body (body', u) →
      Accepts cx scope (.letIn m name type init body)
        (.letIn { m with type := u } name type init' body', u)
  | binary {scope m op left left' t right right' u} :
      Accepts cx scope left (left', t) → Accepts cx scope right (right', u) →
      Context.OperandsFit op t u →
      Accepts cx scope (.binary m op left right)
        (.binary { m with type := Context.binaryType op } op left' right', Context.binaryType op)
  | unary {scope m op operand operand' t} :
      Accepts cx scope operand (operand', t) → Context.OperandFits op t →
      Accepts cx scope (.unary m op operand)
        (.unary { m with type := Context.unaryType op } op operand', Context.unaryType op)
  | int {scope m token} :
      Accepts cx scope (.int m token) (.int { m with type := .int } token, .int)
  | string {scope m value} :
      Accepts cx scope (.string m value) (.string { m with type := .string } value, .string)
  | bool {scope m value} :
      Accepts cx scope (.bool m value) (.bool { m with type := .bool } value, .bool)
  | new {scope m type} :
      type = .selfType ∨ cx.hierarchy.has type = true →
      Accepts cx scope (.new m type) (.new { m with type := type } type, type)
  | object {scope m name t} :
      scope.lookup name = some t →
      Accepts cx scope (.object m name) (.object { m with type := t } name, t)

/-- Acceptance of every expression of a list. -/
inductive AcceptsAll (cx : Context) : Scope Name Name → List Expr → List (Expr × Name) → Prop where
  | nil {scope} : AcceptsAll cx scope [] []
  | cons {scope e r es rs} :
      Accepts cx scope e r → AcceptsAll cx scope es rs → AcceptsAll cx scope (e :: es) (r :: rs)

/-- Acceptance of the branches of a case after branches with the given guards and join. -/
inductive AcceptsBranches (cx : Context) : Scope Name Name → List Name → Option Name →
    List Branch → List Branch × Option Name → Prop where
  | nil {scope guards before} : AcceptsBranches cx scope guards before [] ([], before)
  | cons {scope guards before span name guard body body' t rest rest' u} :
      guard ∉ guards → cx.GuardFits name guard →
      Accepts cx (Context.bind scope name guard) body (body', t) →
      AcceptsBranches cx scope (guard :: guards) (some (cx.joinAfter before t)) rest (rest', u) →
      AcceptsBranches cx scope guards before (.mk span name guard body :: rest)
        (.mk span name guard body' :: rest', u)

end

/-! ## One construct at a time

Checking is decided where checking the parts is. -/

/-- Whether checking an expression is silent exactly with what acceptance gives. -/
def Decided (cx : Context) (scope : Scope Name Name) (e : Expr) : Prop :=
  Decides (check cx scope e) (Accepts cx scope e)

namespace Decided

variable {cx : Context} {scope : Scope Name Name} {m : Mark}

-- Every lemma below unfolds one equation of `check`: they are generated here, once for all.
attribute [local simp] check

theorem block {body : List Expr}
    (hbody : Decides (checkAll cx scope body) (AcceptsAll cx scope body)) :
    Decided cx scope (.block m body) := by
  rw [Decided, check]
  refine (hbody.bind fun rs => .typed _ _ _).congr fun b => ⟨?_, ?_⟩
  · rintro ⟨rs, hrs, rfl⟩
    exact .block hrs
  · rintro ⟨⟩
    exact ⟨_, ‹_›, rfl⟩

theorem assign {name : Name} {value : Expr} (hvalue : Decided cx scope value) :
    Decided cx scope (.assign m name value) := by
  rw [Decided, check]
  refine (hvalue.bind (Q := fun r b => name ≠ .self ∧
    ∃ expected, scope.lookup name = some expected ∧ cx.conforms r.2 expected = true ∧
      (Expr.assign { m with type := r.2 } name r.1, r.2) = b) ?_).congr fun b => ⟨?_, ?_⟩
  · rintro ⟨value', t⟩
    dsimp only
    split
    · rename_i hself
      exact (Decides.illTyped _ _ _).congr (by simp [hself])
    · rename_i hself
      cases hl : scope.lookup name with
      | none => exact (Decides.illTyped _ _ _).congr (by simp)
      | some expected =>
          dsimp only
          split
          · rename_i hc
            exact (Decides.typed _ _ _).congr (by simp [hself, hc])
          · rename_i hc
            exact (Decides.illTyped _ _ _).congr (by simp [hc])
  · rintro ⟨⟨value', t⟩, hv, hself, expected, hl, hc, rfl⟩
    exact .assign hv hself hl hc
  · intro h
    cases h with
    | assign hv hself hl hc => exact ⟨_, hv, hself, _, hl, hc, rfl⟩

theorem dispatch {receiver : Expr} {method : Name} {args : List Expr}
    (hreceiver : Decided cx scope receiver)
    (hargs : Decides (checkAll cx scope args) (AcceptsAll cx scope args)) :
    Decided cx scope (.dispatch m receiver method args) := by
  rw [Decided, check]
  refine (hreceiver.bind
    (Q := fun r b => ∃ rs, AcceptsAll cx scope args rs ∧
      ((r.2 = .errType ∧
        (Expr.dispatch { m with type := .errType } r.1 method (rs.map (·.1)), .errType) = b) ∨
      (r.2 ≠ .errType ∧ ∃ entry, cx.method? r.2 method = some entry ∧
        cx.ArgumentsConform entry.params rs ∧
        (Expr.dispatch { m with type := Context.callType entry r.2 } r.1 method
          (rs.map (·.1)), Context.callType entry r.2) = b))) ?_).congr fun b => ⟨?_, ?_⟩
  · rintro ⟨receiver', t⟩
    dsimp only
    refine hargs.bind fun rs => ?_
    split
    · rename_i herr
      exact (Decides.typed _ _ _).congr (by simp [herr])
    · rename_i herr
      cases hm : cx.method? t method with
      | none => exact (Decides.illTyped _ _ _).congr (by simp [herr])
      | some entry =>
          exact ((cx.decides_checkCall entry t m.span rs).bind fun _ =>
            .typed _ _ _).congr (by simp [herr])
  · rintro ⟨⟨receiver', t⟩, hr, rs, hrs, ⟨rfl, rfl⟩ | ⟨hne, entry, hm, hargs, rfl⟩⟩
    · exact .dispatchIllTyped hr hrs
    · exact .dispatch hr hrs hne hm hargs
  · intro h
    cases h with
    | dispatchIllTyped hr hrs => exact ⟨_, hr, _, hrs, Or.inl ⟨rfl, rfl⟩⟩
    | dispatch hr hrs hne hm hargs =>
        exact ⟨_, hr, _, hrs, Or.inr ⟨hne, _, hm, hargs, rfl⟩⟩

theorem staticDispatch {receiver : Expr} {target method : Name} {args : List Expr}
    (hreceiver : Decided cx scope receiver)
    (hargs : Decides (checkAll cx scope args) (AcceptsAll cx scope args)) :
    Decided cx scope (.staticDispatch m receiver target method args) := by
  rw [Decided, check]
  refine (hreceiver.bind
    (Q := fun r b => ∃ rs, AcceptsAll cx scope args rs ∧ target ≠ .selfType ∧
      cx.hierarchy.has target = true ∧ cx.conforms r.2 target = true ∧
      ∃ entry, cx.method? target method = some entry ∧
        cx.ArgumentsConform entry.params rs ∧
        (Expr.staticDispatch { m with type := Context.callType entry r.2 } r.1 target method
          (rs.map (·.1)), Context.callType entry r.2) = b) ?_).congr fun b => ⟨?_, ?_⟩
  · rintro ⟨receiver', t⟩
    dsimp only
    refine hargs.bind fun rs => ?_
    split
    · rename_i hself
      exact (Decides.illTyped _ _ _).congr (by simp [hself])
    · rename_i hself
      split
      · rename_i hhas
        cases hm : cx.method? target method with
        | none =>
            exact ((Decides.require _ _ _).bind fun _ => .illTyped _ _ _).congr (by simp)
        | some entry =>
            exact ((Decides.require _ _ _).bind fun _ =>
              (cx.decides_checkCall entry target m.span rs).bind fun _ =>
                .typed _ _ _).congr (by simp [hself, hhas])
      · rename_i hhas
        exact (Decides.illTyped _ _ _).congr (by simp [hhas])
  · rintro ⟨⟨receiver', t⟩, hr, rs, hrs, hself, hhas, hc, entry, hm, hargs, rfl⟩
    exact .staticDispatch hr hrs hself hhas hc hm hargs
  · intro h
    cases h with
    | staticDispatch hr hrs hself hhas hc hm hargs =>
        exact ⟨_, hr, _, hrs, hself, hhas, hc, _, hm, hargs, rfl⟩

theorem cond {pred onTrue onFalse : Expr} (hpred : Decided cx scope pred)
    (htrue : Decided cx scope onTrue) (hfalse : Decided cx scope onFalse) :
    Decided cx scope (.cond m pred onTrue onFalse) := by
  rw [Decided, check]
  refine (hpred.bind fun r =>
    (Decides.require (Context.isOr .bool r.2) m.span (.predicate r.2)).bind fun _ =>
    htrue.bind fun r₁ => hfalse.bind fun r₂ =>
    .typed m (cx.join r₁.2 r₂.2) fun m => .cond m r.1 r₁.1 r₂.1).congr fun b => ⟨?_, ?_⟩
  · rintro ⟨⟨pred', t⟩, hp, _, hbool, ⟨onTrue', t₁⟩, ht, ⟨onFalse', t₂⟩, hf, rfl⟩
    exact .cond hp hbool ht hf
  · intro h
    cases h with
    | cond hp hbool ht hf => exact ⟨_, hp, (), hbool, _, ht, _, hf, rfl⟩

theorem loop {pred body : Expr} (hpred : Decided cx scope pred) (hbody : Decided cx scope body) :
    Decided cx scope (.loop m pred body) := by
  rw [Decided, check]
  refine (hpred.bind fun r =>
    (Decides.require (Context.isOr .bool r.2) m.span (.predicate r.2)).bind fun _ =>
    hbody.bind fun r₁ => .typed m .object fun m => .loop m r.1 r₁.1).congr fun b => ⟨?_, ?_⟩
  · rintro ⟨⟨pred', t⟩, hp, _, hbool, ⟨body', u⟩, hbody, rfl⟩
    exact .loop hp hbool hbody
  · intro h
    cases h with
    | loop hp hbool hbody => exact ⟨_, hp, (), hbool, _, hbody, rfl⟩

theorem caseOf {scrutinee : Expr} {branches : List Branch} (hscrutinee : Decided cx scope scrutinee)
    (hbranches : Decides (checkBranches cx scope [] none branches)
      (AcceptsBranches cx scope [] none branches)) :
    Decided cx scope (.caseOf m scrutinee branches) := by
  rw [Decided, check]
  refine (hscrutinee.bind fun r => hbranches.bind fun rs =>
    .typed m (rs.2.getD .noType) fun m => .caseOf m r.1 rs.1).congr fun b => ⟨?_, ?_⟩
  · rintro ⟨⟨scrutinee', t⟩, hs, ⟨branches', u⟩, hbs, rfl⟩
    exact .caseOf hs hbs
  · intro h
    cases h with
    | caseOf hs hbs => exact ⟨_, hs, _, hbs, rfl⟩

theorem letIn {name type : Name} {init body : Expr} (hinit : Decided cx scope init)
    (hbody : Decided cx (Context.bind scope name type) body) :
    Decided cx scope (.letIn m name type init body) := by
  rw [Decided, check]
  refine (hinit.bind fun r =>
    (cx.decides_checkLet m.span name type r.1 r.2).bind fun _ =>
    hbody.bind fun r₁ => .typed m r₁.2 fun m => .letIn m name type r.1 r₁.1).congr
    fun b => ⟨?_, ?_⟩
  · rintro ⟨⟨init', t⟩, hi, _, hfit, ⟨body', u⟩, hbody, rfl⟩
    exact .letIn hi hfit hbody
  · intro h
    cases h with
    | letIn hi hfit hbody => exact ⟨_, hi, (), hfit, _, hbody, rfl⟩

theorem binary {op : BinaryOp} {left right : Expr} (hleft : Decided cx scope left)
    (hright : Decided cx scope right) : Decided cx scope (.binary m op left right) := by
  rw [Decided, check]
  refine (hleft.bind fun r₁ => hright.bind fun r₂ =>
    (Context.decides_checkOperands m.span op r₁.2 r₂.2).bind fun _ =>
    .typed m (Context.binaryType op) fun m => .binary m op r₁.1 r₂.1).congr fun b => ⟨?_, ?_⟩
  · rintro ⟨⟨left', t⟩, hl, ⟨right', u⟩, hr, _, hfit, rfl⟩
    exact .binary hl hr hfit
  · intro h
    cases h with
    | binary hl hr hfit => exact ⟨_, hl, _, hr, (), hfit, rfl⟩

theorem unary {op : UnaryOp} {operand : Expr} (hoperand : Decided cx scope operand) :
    Decided cx scope (.unary m op operand) := by
  rw [Decided, check]
  refine (hoperand.bind fun r =>
    (Context.decides_checkOperand m.span op r.2).bind fun _ =>
    .typed m (Context.unaryType op) fun m => .unary m op r.1).congr fun b => ⟨?_, ?_⟩
  · rintro ⟨⟨operand', t⟩, ho, _, hfit, rfl⟩
    exact .unary ho hfit
  · intro h
    cases h with
    | unary ho hfit => exact ⟨_, ho, (), hfit, rfl⟩

theorem new {type : Name} : Decided cx scope (.new m type) := by
  rw [Decided, check]
  split
  · rename_i htype
    exact (Decides.typed _ _ _).of_unique (.new htype) (by rintro _ ⟨⟩; rfl)
  · rename_i htype
    refine (Decides.illTyped _ _ _).congr fun b => ⟨False.elim, ?_⟩
    intro h
    cases h with
    | new hdef => exact htype hdef

theorem object {name : Name} : Decided cx scope (.object m name) := by
  rw [Decided, check]
  cases hl : scope.lookup name with
  | none =>
      refine (Decides.illTyped _ _ _).congr fun b => ⟨False.elim, ?_⟩
      intro h
      cases h with
      | object hsome => rw [hl] at hsome; cases hsome
  | some t =>
      refine (Decides.typed _ _ _).of_unique (.object hl) fun b h => ?_
      cases h with
      | object hsome => rw [Option.some.inj (hl.symm.trans hsome)]

end Decided

/-! ## All constructs -/

mutual

/-- Checking an expression is silent exactly with what acceptance gives. -/
theorem decides_check (cx : Context) (scope : Scope Name Name) :
    ∀ e : Expr, Decides (check cx scope e) (Accepts cx scope e)
  | .missing => by
      rw [check]
      exact (Decides.pure _).of_unique .missing (by rintro _ ⟨⟩; rfl)
  | .noExpr _ => by
      rw [check]
      exact (Decides.typed _ _ _).of_unique .noExpr (by rintro _ ⟨⟩; rfl)
  | .int _ _ => by
      rw [check]
      exact (Decides.typed _ _ _).of_unique .int (by rintro _ ⟨⟩; rfl)
  | .string _ _ => by
      rw [check]
      exact (Decides.typed _ _ _).of_unique .string (by rintro _ ⟨⟩; rfl)
  | .bool _ _ => by
      rw [check]
      exact (Decides.typed _ _ _).of_unique .bool (by rintro _ ⟨⟩; rfl)
  | .block _ body => Decided.block (decides_checkAll cx scope body)
  | .assign _ _ value => Decided.assign (decides_check cx scope value)
  | .dispatch _ receiver _ args =>
      Decided.dispatch (decides_check cx scope receiver) (decides_checkAll cx scope args)
  | .staticDispatch _ receiver _ _ args =>
      Decided.staticDispatch (decides_check cx scope receiver) (decides_checkAll cx scope args)
  | .cond _ pred onTrue onFalse =>
      Decided.cond (decides_check cx scope pred) (decides_check cx scope onTrue)
        (decides_check cx scope onFalse)
  | .loop _ pred body => Decided.loop (decides_check cx scope pred) (decides_check cx scope body)
  | .caseOf _ scrutinee branches =>
      Decided.caseOf (decides_check cx scope scrutinee)
        (decides_checkBranches cx scope [] none branches)
  | .letIn _ name type init body =>
      Decided.letIn (decides_check cx scope init)
        (decides_check cx (Context.bind scope name type) body)
  | .binary _ _ left right =>
      Decided.binary (decides_check cx scope left) (decides_check cx scope right)
  | .unary _ _ operand => Decided.unary (decides_check cx scope operand)
  | .new _ _ => Decided.new
  | .object _ _ => Decided.object
termination_by structural e => e

theorem decides_checkAll (cx : Context) (scope : Scope Name Name) :
    ∀ es : List Expr, Decides (checkAll cx scope es) (AcceptsAll cx scope es)
  | [] => by
      rw [checkAll]
      exact (Decides.pure _).of_unique .nil (by rintro _ ⟨⟩; rfl)
  | e :: es => by
      rw [checkAll]
      refine ((decides_check cx scope e).bind fun r =>
        (decides_checkAll cx scope es).bind fun rs => .pure (r :: rs)).congr fun b => ⟨?_, ?_⟩
      · rintro ⟨r, hr, rs, hrs, rfl⟩
        exact .cons hr hrs
      · intro h
        cases h with
        | cons hr hrs => exact ⟨_, hr, _, hrs, rfl⟩
termination_by structural es => es

theorem decides_checkBranches (cx : Context) (scope : Scope Name Name) (guards : List Name)
    (before : Option Name) : ∀ bs : List Branch,
    Decides (checkBranches cx scope guards before bs) (AcceptsBranches cx scope guards before bs)
  | [] => by
      rw [checkBranches]
      exact (Decides.pure _).of_unique .nil (by rintro _ ⟨⟩; rfl)
  | .mk span name guard body :: rest => by
      rw [checkBranches]
      split
      · rename_i hdup
        refine ((Decides.report _ _).bind fun _ =>
          (decides_checkBranches cx scope guards before rest).bind fun rs =>
          .pure (.mk span name guard body :: rs.1, rs.2)).congr fun b => ⟨?_, ?_⟩
        · rintro ⟨_, hf, -⟩
          exact hf.elim
        · intro h
          cases h with
          | cons hnew => exact absurd hdup hnew
      · rename_i hnew
        refine ((cx.decides_checkGuard span name guard).bind fun _ =>
          (decides_check cx (Context.bind scope name guard) body).bind fun r =>
          (decides_checkBranches cx scope (guard :: guards) (some (cx.joinAfter before r.2))
            rest).bind fun rs => .pure (.mk span name guard r.1 :: rs.1, rs.2)).congr
          fun b => ⟨?_, ?_⟩
        · rintro ⟨_, hfit, ⟨body', t⟩, hbody, ⟨rest', u⟩, hrest, rfl⟩
          exact .cons hnew hfit hbody hrest
        · intro h
          cases h with
          | cons _ hfit hbody hrest => exact ⟨(), hfit, _, hbody, _, hrest, rfl⟩
termination_by structural bs => bs

end

end Cool.Typing
