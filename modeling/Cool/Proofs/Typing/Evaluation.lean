import Cool.Literal
import Cool.Proofs.Tree.Nodes
import Cool.Proofs.Typing.Agreement
import Mathlib.Logic.Function.Basic

/-! The values of expressions over local variables. Operands are evaluated from the left to the
right, and integers are those of 32 bits in two's complement. What was checked evaluates to a value
of its type. -/

namespace Cool

/-- Values. An object of a class without constants is known by its class and its address. -/
inductive Value where
  | int (n : Int32)
  | bool (b : Bool)
  | string (s : String)
  | void
  | object (cls : Name) (address : Nat)
deriving DecidableEq, Repr

namespace Value

/-- The class of a value. That of no value is void. -/
def class? : Value → Option Name
  | int _ => some .int
  | bool _ => some .bool
  | string _ => some .string
  | void => none
  | object c _ => some c

/-- The value of a variable of a type that is not initialized. -/
def initial (t : Name) : Value :=
  if t = .int then int 0
  else if t = .string then string ""
  else if t = .bool then bool false
  else void

end Value

/-- The quotient of two integers, truncated and in two's complement, so that of the least integer by
-1 is the least integer again. There is none by zero. -/
def quotient? (a b : Int32) : Option Int32 :=
  if b = 0 then none else some (.ofInt (a.toInt.tdiv b.toInt))

/-- The value of an operator on integers. -/
def BinaryOp.value? : BinaryOp → Int32 → Int32 → Option Value
  | plus, a, b => some (.int (.ofInt (a.toInt + b.toInt)))
  | sub, a, b => some (.int (.ofInt (a.toInt - b.toInt)))
  | mul, a, b => some (.int (.ofInt (a.toInt * b.toInt)))
  | divide, a, b => (quotient? a b).map .int
  | lt, a, b => some (.bool (decide (a.toInt < b.toInt)))
  | leq, a, b => some (.bool (decide (a.toInt ≤ b.toInt)))
  | eq, _, _ => none
  | unknown _, _, _ => none

/-- The values of the variables in scope. -/
abbrev Valuation := Name → Option Value

mutual

/-- `Evaluates σ e v σ'`: from the variables `σ` the expression `e` ends with the value `v` and the
variables `σ'`. A variable that is bound hides another of its name, which has its value again
afterwards. Equality is that of integers and of booleans. -/
inductive Evaluates : Valuation → Expr → Value → Valuation → Prop where
  | int {σ m token n} : Literal.parse token = .ok n → Evaluates σ (.int m token) (.int n) σ
  | string {σ m s} : Evaluates σ (.string m s) (.string s) σ
  | bool {σ m b} : Evaluates σ (.bool m b) (.bool b) σ
  | object {σ m x v} : σ x = some v → Evaluates σ (.object m x) v σ
  | assign {σ σ₁ m x e v} : Evaluates σ e v σ₁ → (σ₁ x).isSome →
      Evaluates σ (.assign m x e) v (Function.update σ₁ x (some v))
  | block {σ σ' m es v} : EvaluatesRest σ .void es v σ' → Evaluates σ (.block m es) v σ'
  | cond {σ σ₁ σ' m pred onTrue onFalse b v} : Evaluates σ pred (.bool b) σ₁ →
      Evaluates σ₁ (if b then onTrue else onFalse) v σ' →
      Evaluates σ (.cond m pred onTrue onFalse) v σ'
  | loopExit {σ σ' m pred body} : Evaluates σ pred (.bool false) σ' →
      Evaluates σ (.loop m pred body) .void σ'
  | loopAgain {σ σ₁ σ₂ σ' m pred body u v} : Evaluates σ pred (.bool true) σ₁ →
      Evaluates σ₁ body u σ₂ → Evaluates σ₂ (.loop m pred body) v σ' →
      Evaluates σ (.loop m pred body) v σ'
  | letIn {σ σ₁ σ₂ m x t init body u v} : init.isAbsent = false → Evaluates σ init u σ₁ →
      Evaluates (Function.update σ₁ x (some u)) body v σ₂ →
      Evaluates σ (.letIn m x t init body) v (Function.update σ₂ x (σ₁ x))
  | letDefault {σ σ₁ m x t init body v} : init.isAbsent = true →
      Evaluates (Function.update σ x (some (.initial t))) body v σ₁ →
      Evaluates σ (.letIn m x t init body) v (Function.update σ₁ x (σ x))
  | integers {σ σ₁ σ' m op left right a b v} : Evaluates σ left (.int a) σ₁ →
      Evaluates σ₁ right (.int b) σ' → op.value? a b = some v →
      Evaluates σ (.binary m op left right) v σ'
  | equalInts {σ σ₁ σ' m left right a b} : left.type = .int → Evaluates σ left (.int a) σ₁ →
      Evaluates σ₁ right (.int b) σ' →
      Evaluates σ (.binary m .eq left right) (.bool (decide (a = b))) σ'
  | equalBools {σ σ₁ σ' m left right a b} : left.type = .bool → Evaluates σ left (.bool a) σ₁ →
      Evaluates σ₁ right (.bool b) σ' →
      Evaluates σ (.binary m .eq left right) (.bool (decide (a = b))) σ'
  | neg {σ σ' m e a} : Evaluates σ e (.int a) σ' →
      Evaluates σ (.unary m .neg e) (.int (.ofInt (-a.toInt))) σ'
  | comp {σ σ' m e b} : Evaluates σ e (.bool b) σ' →
      Evaluates σ (.unary m .comp e) (.bool (!b)) σ'
  | isvoid {σ σ' m e v} : Evaluates σ e v σ' →
      Evaluates σ (.unary m .isvoid e) (.bool (decide (v = .void))) σ'

/-- The value of a sequence is that of its last expression, or the one before it if there is
none. -/
inductive EvaluatesRest : Valuation → Value → List Expr → Value → Valuation → Prop where
  | nil {σ v} : EvaluatesRest σ v [] v σ
  | cons {σ σ₁ σ' u e es v v'} : Evaluates σ e v σ₁ → EvaluatesRest σ₁ v es v' σ' →
      EvaluatesRest σ u (e :: es) v' σ'

end

mutual

/-- `Overflows σ e`: evaluating `e` from the variables `σ` comes to a division of the least integer
by -1, whose quotient is out of the range of 32 bits. -/
inductive Overflows : Valuation → Expr → Prop where
  | divide {σ σ₁ σ' m left right} : Evaluates σ left (.int .minValue) σ₁ →
      Evaluates σ₁ right (.int (-1)) σ' → Overflows σ (.binary m .divide left right)
  | left {σ m op left right} : Overflows σ left → Overflows σ (.binary m op left right)
  | right {σ σ₁ m op left right u} : Evaluates σ left u σ₁ → Overflows σ₁ right →
      Overflows σ (.binary m op left right)
  | operand {σ m op e} : Overflows σ e → Overflows σ (.unary m op e)
  | assign {σ m x e} : Overflows σ e → Overflows σ (.assign m x e)
  | block {σ m es} : OverflowsRest σ es → Overflows σ (.block m es)
  | condPred {σ m pred onTrue onFalse} : Overflows σ pred →
      Overflows σ (.cond m pred onTrue onFalse)
  | condBranch {σ σ₁ m pred onTrue onFalse b} : Evaluates σ pred (.bool b) σ₁ →
      Overflows σ₁ (if b then onTrue else onFalse) → Overflows σ (.cond m pred onTrue onFalse)
  | loopPred {σ m pred body} : Overflows σ pred → Overflows σ (.loop m pred body)
  | loopBody {σ σ₁ m pred body} : Evaluates σ pred (.bool true) σ₁ → Overflows σ₁ body →
      Overflows σ (.loop m pred body)
  | loopAgain {σ σ₁ σ₂ m pred body u} : Evaluates σ pred (.bool true) σ₁ →
      Evaluates σ₁ body u σ₂ → Overflows σ₂ (.loop m pred body) → Overflows σ (.loop m pred body)
  | letInit {σ m x t init body} : init.isAbsent = false → Overflows σ init →
      Overflows σ (.letIn m x t init body)
  | letBody {σ σ₁ m x t init body u} : init.isAbsent = false → Evaluates σ init u σ₁ →
      Overflows (Function.update σ₁ x (some u)) body → Overflows σ (.letIn m x t init body)
  | letDefault {σ m x t init body} : init.isAbsent = true →
      Overflows (Function.update σ x (some (.initial t))) body →
      Overflows σ (.letIn m x t init body)

inductive OverflowsRest : Valuation → List Expr → Prop where
  | head {σ e es} : Overflows σ e → OverflowsRest σ (e :: es)
  | tail {σ σ₁ e es v} : Evaluates σ e v σ₁ → OverflowsRest σ₁ es → OverflowsRest σ (e :: es)

end

/-! ## Divisions -/

/-- Whether a node is a division. -/
def Node.isDivision : Node → Bool
  | .expr (.binary _ .divide _ _) => true
  | _ => false

mutual

/-- Only an expression with a division in it overflows. -/
theorem Overflows.exists_division : ∀ {σ : Valuation} {e : Expr}, Overflows σ e →
    ∃ n ∈ e.nodes, n.isDivision = true
  | _, _, .divide _ _ => ⟨_, List.mem_cons_self, rfl⟩
  | _, _, .left h | _, _, .loopPred h | _, _, .letInit _ h =>
      h.exists_division.imp fun _ => .imp_left fun hn =>
        List.mem_cons_of_mem _ (List.mem_append_left _ hn)
  | _, _, .right _ h | _, _, .loopBody _ h | _, _, .letBody _ _ h | _, _, .letDefault _ h =>
      h.exists_division.imp fun _ => .imp_left fun hn =>
        List.mem_cons_of_mem _ (List.mem_append_right _ hn)
  | _, _, .operand h | _, _, .assign h | _, _, .block h =>
      h.exists_division.imp fun _ => .imp_left fun hn => List.mem_cons_of_mem _ hn
  | _, _, .condPred h =>
      h.exists_division.imp fun _ => .imp_left fun hn =>
        List.mem_cons_of_mem _ (List.mem_append_left _ (List.mem_append_left _ hn))
  | _, _, @Overflows.condBranch _ _ _ _ _ _ true _ h =>
      h.exists_division.imp fun _ => .imp_left fun hn =>
        List.mem_cons_of_mem _ (List.mem_append_left _ (List.mem_append_right _ hn))
  | _, _, @Overflows.condBranch _ _ _ _ _ _ false _ h =>
      h.exists_division.imp fun _ => .imp_left fun hn =>
        List.mem_cons_of_mem _ (List.mem_append_right _ hn)
  | _, _, .loopAgain _ _ h => h.exists_division

theorem OverflowsRest.exists_division : ∀ {σ : Valuation} {es : List Expr}, OverflowsRest σ es →
    ∃ n ∈ Expr.nodesAll es, n.isDivision = true
  | _, _, .head h =>
      h.exists_division.imp fun _ => .imp_left fun hn => List.mem_append_left _ hn
  | _, _, .tail _ h =>
      h.exists_division.imp fun _ => .imp_left fun hn => List.mem_append_right _ hn

end

/-! ## Variables -/

mutual

/-- Evaluation binds no variable for good. -/
theorem Evaluates.isSome_eq : ∀ {σ σ' : Valuation} {e : Expr} {v : Value},
    Evaluates σ e v σ' → ∀ x, (σ' x).isSome = (σ x).isSome
  | _, _, _, _, .int _, _ => rfl
  | _, _, _, _, .string, _ => rfl
  | _, _, _, _, .bool, _ => rfl
  | _, _, _, _, .object _, _ => rfl
  | _, _, _, _, @Evaluates.assign _ σ₁ _ x _ v he hx, y => by
      rw [← he.isSome_eq y]
      by_cases hy : y = x
      · rw [hy, Function.update_self, hx]
        rfl
      · rw [Function.update_of_ne hy]
  | _, _, _, _, .block hes, y => hes.isSome_eq y
  | _, _, _, _, .cond hpred hbranch, y => (hbranch.isSome_eq y).trans (hpred.isSome_eq y)
  | _, _, _, _, .loopExit hpred, y => hpred.isSome_eq y
  | _, _, _, _, .loopAgain hpred hbody hloop, y =>
      (hloop.isSome_eq y).trans ((hbody.isSome_eq y).trans (hpred.isSome_eq y))
  | _, _, _, _, @Evaluates.letIn _ σ₁ _ _ x _ _ _ _ _ _ hinit hbody, y => by
      rw [← hinit.isSome_eq y]
      by_cases hy : y = x
      · rw [hy, Function.update_self]
      · rw [Function.update_of_ne hy, hbody.isSome_eq y, Function.update_of_ne hy]
  | _, _, _, _, @Evaluates.letDefault _ _ _ x _ _ _ _ _ hbody, y => by
      by_cases hy : y = x
      · rw [hy, Function.update_self]
      · rw [Function.update_of_ne hy, hbody.isSome_eq y, Function.update_of_ne hy]
  | _, _, _, _, .integers hleft hright _, y => (hright.isSome_eq y).trans (hleft.isSome_eq y)
  | _, _, _, _, .equalInts _ hleft hright, y => (hright.isSome_eq y).trans (hleft.isSome_eq y)
  | _, _, _, _, .equalBools _ hleft hright, y => (hright.isSome_eq y).trans (hleft.isSome_eq y)
  | _, _, _, _, .neg he, y => he.isSome_eq y
  | _, _, _, _, .comp he, y => he.isSome_eq y
  | _, _, _, _, .isvoid he, y => he.isSome_eq y

theorem EvaluatesRest.isSome_eq : ∀ {σ σ' : Valuation} {es : List Expr} {u v : Value},
    EvaluatesRest σ u es v σ' → ∀ x, (σ' x).isSome = (σ x).isSome
  | _, _, _, _, _, .nil, _ => rfl
  | _, _, _, _, _, .cons he hes, y => (hes.isSome_eq y).trans (he.isSome_eq y)

end

namespace Typing

/-! ## Types of values -/

/-- Whether a value is of a type: void, or of a class below that of the type. -/
def Context.Admits (cx : Context) (t : Name) (v : Value) : Prop :=
  ∀ c, v.class? = some c → cx.hierarchy.Inherits c (Members.resolve t cx.current)

/-- Whether every variable has a value of its type. -/
def Context.AdmitsAll (cx : Context) (L : Env) (σ : Valuation) : Prop :=
  ∀ x v, σ x = some v → ∃ t, L x = some t ∧ cx.Admits t v

variable {cx : Context}

theorem Context.Admits.of_class {t c : Name} {v : Value} (hv : v.class? = some c)
    (ht : Members.resolve t cx.current = c) : cx.Admits t v := by
  intro d hd
  cases hv.symm.trans hd
  rw [ht]
  exact .refl c

theorem Context.Admits.void {t : Name} : cx.Admits t .void :=
  nofun

theorem Context.Admits.initial (t : Name) : cx.Admits t (.initial t) := by
  unfold Value.initial
  split
  · rename_i ht
    subst ht
    exact .of_class rfl rfl
  · split
    · rename_i ht
      subst ht
      exact .of_class rfl rfl
    · split
      · rename_i ht
        subst ht
        exact .of_class rfl rfl
      · exact .void

/-- The value of an operator is of the class that the operator has. -/
theorem Context.Admits.value? (cx : Context) {op : BinaryOp} {a b : Int32} {v : Value}
    (hv : op.value? a b = some v) : cx.Admits (if op.isArithmetic then .int else .bool) v := by
  cases op with
  | plus | sub | mul | lt | leq =>
      cases hv
      exact .of_class rfl rfl
  | divide =>
      obtain ⟨q, -, rfl⟩ := Option.map_eq_some_iff.mp hv
      exact .of_class rfl rfl
  | eq | unknown => cases hv

/-- A value of a type is of every type that it conforms to. -/
theorem Context.Admits.conforms (hr : cx.hierarchy.Rooted) {t u : Name} {v : Value}
    (hv : cx.Admits t v) (htu : cx.Conforms t u) : cx.Admits u v :=
  fun c hc => (hv c hc).trans (htu.inherits hr)

theorem Context.AdmitsAll.update {L : Env} {σ : Valuation} (hσ : cx.AdmitsAll L σ) {x t : Name}
    {v : Value} (hx : L x = some t) (hv : cx.Admits t v) :
    cx.AdmitsAll L (Function.update σ x (some v)) := by
  intro y u hy
  by_cases hyx : y = x
  · subst hyx
    rw [Function.update_self, Option.some.injEq] at hy
    exact ⟨t, hx, hy ▸ hv⟩
  · rw [Function.update_of_ne hyx] at hy
    exact hσ y u hy

theorem Context.AdmitsAll.bind {L : Env} {σ : Valuation} (hσ : cx.AdmitsAll L σ) (x : Name)
    {t : Name} {v : Value} (hv : cx.Admits t v) :
    cx.AdmitsAll (L.bind x t) (Function.update σ x (some v)) := by
  intro y u hy
  rw [Env.bind]
  by_cases hyx : y = x
  · subst hyx
    rw [Function.update_self, Option.some.injEq] at hy
    exact ⟨t, if_pos rfl, hy ▸ hv⟩
  · rw [Function.update_of_ne hyx] at hy
    rw [if_neg hyx]
    exact hσ y u hy

/-- The variables around a binding have their types again after it. -/
theorem Context.AdmitsAll.unbind {L : Env} {σ σ₁ : Valuation} {x t : Name}
    (hσ : cx.AdmitsAll L σ) (hσ₁ : cx.AdmitsAll (L.bind x t) σ₁) :
    cx.AdmitsAll L (Function.update σ₁ x (σ x)) := by
  intro y u hy
  by_cases hyx : y = x
  · subst hyx
    rw [Function.update_self] at hy
    exact hσ y u hy
  · rw [Function.update_of_ne hyx] at hy
    have hbound := hσ₁ y u hy
    rwa [Env.bind, if_neg hyx] at hbound

/-- Either branch has a type that conforms to the join of both. -/
theorem HasType.branch {L : Env} {e₁ e₁' e₂ e₂' : Expr} {t₁ t₂ t : Name} (b : Bool)
    (h₁ : HasType cx L e₁ e₁' t₁) (h₂ : HasType cx L e₂ e₂' t₂) (hjoin : cx.IsJoin [t₁, t₂] t) :
    ∃ e u, HasType cx L e (if b then e₁' else e₂') u ∧ cx.Conforms u t := by
  cases b with
  | true => exact ⟨e₁, t₁, h₁, hjoin.upper _ (by simp)⟩
  | false => exact ⟨e₂, t₂, h₂, hjoin.upper _ (by simp)⟩

theorem HasType.equands {L : Env} {e left right : Expr} {m : Mark} {t : Name}
    (h : HasType cx L e (.binary m .eq left right) t) :
    ∃ m₀ e₁ e₂ t₁ t₂, e = .binary m₀ .eq e₁ e₂ ∧ t = .bool ∧ HasType cx L e₁ left t₁ ∧
      HasType cx L e₂ right t₂ := by
  cases h with
  | arithmetic hop => cases hop
  | comparison _ hne => exact absurd rfl hne
  | equality ht₁ ht₂ => exact ⟨_, _, _, _, _, rfl, rfl, ht₁, ht₂⟩

theorem HasType.iteration {L : Env} {e pred body : Expr} {m : Mark} {t : Name}
    (h : HasType cx L e (.loop m pred body) t) :
    ∃ m₀ e₀ e₁ u, e = .loop m₀ e₀ e₁ ∧ HasType cx L e₀ pred .bool ∧ HasType cx L e₁ body u := by
  cases h with
  | loop hp ht => exact ⟨_, _, _, _, rfl, hp, ht⟩

mutual

/-- What was checked evaluates to a value of its type, and leaves values of their types in the
variables. -/
theorem HasType.admits (hr : cx.hierarchy.Rooted) : ∀ {σ σ' : Valuation} {e' : Expr} {v : Value},
    Evaluates σ e' v σ' → ∀ {L : Env} {e : Expr} {t : Name}, HasType cx L e e' t →
    cx.AdmitsAll L σ → cx.Admits t v ∧ cx.AdmitsAll L σ'
  | _, _, _, _, .int _, _, _, _, h, hσ => by
      cases h
      exact ⟨.of_class rfl rfl, hσ⟩
  | _, _, _, _, .string, _, _, _, h, hσ => by
      cases h
      exact ⟨.of_class rfl rfl, hσ⟩
  | _, _, _, _, .bool, _, _, _, h, hσ => by
      cases h
      exact ⟨.of_class rfl rfl, hσ⟩
  | _, _, _, _, .object hx, _, _, _, h, hσ => by
      cases h with
      | object ht =>
          obtain ⟨u, hu, hv⟩ := hσ _ _ hx
          cases ht.symm.trans hu
          exact ⟨hv, hσ⟩
  | _, _, _, _, .assign he _, _, _, _, h, hσ => by
      cases h with
      | assign _ hx ht hconforms =>
          obtain ⟨hv, hσ₁⟩ := HasType.admits hr he ht hσ
          exact ⟨hv, hσ₁.update hx (hv.conforms hr hconforms)⟩
  | _, _, _, _, .block hes, _, _, _, h, hσ => by
      cases h with
      | block hts => exact HasTypes.admits hr hes hts .void hσ
  | _, _, _, _, @Evaluates.cond _ _ _ _ _ _ _ b _ hpred hbranch, _, _, _, h, hσ => by
      cases h with
      | cond hp ht₁ ht₂ hjoin =>
          obtain ⟨e, u, ht, hconforms⟩ := HasType.branch b ht₁ ht₂ hjoin
          obtain ⟨hv, hσ'⟩ := HasType.admits hr hbranch ht (HasType.admits hr hpred hp hσ).2
          exact ⟨hv.conforms hr hconforms, hσ'⟩
  | _, _, _, _, .loopExit hpred, _, _, _, h, hσ => by
      cases h with
      | loop hp _ => exact ⟨.void, (HasType.admits hr hpred hp hσ).2⟩
  | _, _, _, _, .loopAgain hpred hbody hloop, _, _, _, h, hσ => by
      obtain ⟨_, _, _, _, rfl, hp, ht⟩ := h.iteration
      obtain ⟨-, hσ₁⟩ := HasType.admits hr hpred hp hσ
      obtain ⟨-, hσ₂⟩ := HasType.admits hr hbody ht hσ₁
      exact HasType.admits hr hloop h hσ₂
  | _, _, _, _, .letIn hpresent hinit hbody, _, _, _, h, hσ => by
      obtain ⟨_, _, _, rfl, -, -, habsent | ⟨t₀, ht₀, hconforms⟩, ht⟩ := h.binding
      · cases hpresent.symm.trans habsent
      · obtain ⟨hu, hσ₁⟩ := HasType.admits hr hinit ht₀ hσ
        obtain ⟨hv, hσ₂⟩ := HasType.admits hr hbody ht (hσ₁.bind _ (hu.conforms hr hconforms))
        exact ⟨hv, hσ₁.unbind hσ₂⟩
  | _, _, _, _, .letDefault _ hbody, _, _, _, h, hσ => by
      obtain ⟨_, _, _, rfl, -, -, -, ht⟩ := h.binding
      obtain ⟨hv, hσ₁⟩ := HasType.admits hr hbody ht (hσ.bind _ (.initial _))
      exact ⟨hv, hσ.unbind hσ₁⟩
  | _, _, _, _, .integers hleft hright hv, _, _, _, h, hσ => by
      have hresult := Context.Admits.value? cx hv
      cases h with
      | arithmetic hop htl htr =>
          rw [if_pos hop] at hresult
          exact ⟨hresult, (HasType.admits hr hright htr (HasType.admits hr hleft htl hσ).2).2⟩
      | comparison hop _ htl htr =>
          rw [hop] at hresult
          exact ⟨hresult, (HasType.admits hr hright htr (HasType.admits hr hleft htl hσ).2).2⟩
      | equality => cases hv
  | _, _, _, _, .equalInts _ hleft hright, _, _, _, h, hσ => by
      obtain ⟨_, _, _, _, _, rfl, rfl, htl, htr⟩ := h.equands
      have hσ₁ := (HasType.admits hr hleft htl hσ).2
      exact ⟨.of_class rfl rfl, (HasType.admits hr hright htr hσ₁).2⟩
  | _, _, _, _, .equalBools _ hleft hright, _, _, _, h, hσ => by
      obtain ⟨_, _, _, _, _, rfl, rfl, htl, htr⟩ := h.equands
      have hσ₁ := (HasType.admits hr hleft htl hσ).2
      exact ⟨.of_class rfl rfl, (HasType.admits hr hright htr hσ₁).2⟩
  | _, _, _, _, .neg he, _, _, _, h, hσ => by
      cases h with
      | neg ht => exact ⟨.of_class rfl rfl, (HasType.admits hr he ht hσ).2⟩
      | test hne => exact absurd rfl hne
  | _, _, _, _, .comp he, _, _, _, h, hσ => by
      cases h with
      | comp ht => exact ⟨.of_class rfl rfl, (HasType.admits hr he ht hσ).2⟩
      | test _ hne => exact absurd rfl hne
  | _, _, _, _, .isvoid he, _, _, _, h, hσ => by
      cases h with
      | test _ _ ht => exact ⟨.of_class rfl rfl, (HasType.admits hr he ht hσ).2⟩

theorem HasTypes.admits (hr : cx.hierarchy.Rooted) : ∀ {σ σ' : Valuation} {es' : List Expr}
    {u v : Value}, EvaluatesRest σ u es' v σ' → ∀ {L : Env} {es : List Expr} {ts : List Name}
    {t : Name}, HasTypes cx L es es' ts → cx.Admits t u → cx.AdmitsAll L σ →
    cx.Admits (ts.getLastD t) v ∧ cx.AdmitsAll L σ'
  | _, _, _, _, _, .nil, _, _, _, _, .nil, hu, hσ => ⟨hu, hσ⟩
  | _, _, _, _, _, .cons he hes, _, _, _, _, .cons ht hts, _, hσ => by
      obtain ⟨hv, hσ₁⟩ := HasType.admits hr he ht hσ
      rw [List.getLastD_cons]
      exact HasTypes.admits hr hes hts hv hσ₁

end

end Typing

end Cool
