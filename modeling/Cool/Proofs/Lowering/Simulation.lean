import Cool.Proofs.Lowering.Assigned
import Cool.Proofs.Lowering.Representation

/-! Lowering preserves the meaning of expressions over local variables. The code of an expression
leaves what represents its value on the stack, and what represents the variables in their locals.
Each rule of evaluation has a lemma that takes this for granted of its premises. -/

namespace Cool.Lowering

open Wat Typing

/-! ## Variables in memory -/

/-- Every variable lies in its local. -/
def Holds (μ : Memory) (σ : Valuation) : Prop :=
  ∀ x v, σ x = some v → ∃ w, μ.locals (localId x) = some w ∧ Represents μ.store w v

namespace Holds

variable {μ μ' : Memory} {σ : Valuation} (h : Holds μ σ)

include h

theorem of_eq (hlocals : ∀ x, (σ x).isSome → μ'.locals (localId x) = μ.locals (localId x))
    (hst : μ.store.Keeps μ'.store) : Holds μ' σ := by
  intro x v hx
  obtain ⟨w, hw, hv⟩ := h x v hx
  exact ⟨w, (hlocals x (by rw [hx]; rfl)).trans hw, hv.keep hst⟩

/-- A scratch local is that of no variable. -/
theorem setSharp (hσ : ∀ x, (σ x).isSome → x.isIdentifier = true) {z : String} (hz : IsSharp z)
    (w : Val) : Holds (μ.set z w) σ := by
  refine h.of_eq (fun x hx => Function.update_of_ne ?_ _ _) (.refl _)
  rintro rfl
  exact not_isSharp_localId (hσ x hx) hz

theorem setVariable (hσ : ∀ x, (σ x).isSome → x.isIdentifier = true) {x : Name}
    (hx : x.isIdentifier = true) {w : Val} {v : Value} (hw : Represents μ.store w v) :
    Holds (μ.set (localId x) w) (Function.update σ x (some v)) := by
  intro y u hy
  by_cases hyx : y = x
  · subst hyx
    rw [Function.update_self, Option.some.injEq] at hy
    exact ⟨w, Function.update_self _ _ _, hy ▸ hw⟩
  · rw [Function.update_of_ne hyx] at hy
    obtain ⟨w', hw', hu⟩ := h y u hy
    refine ⟨w', (Function.update_of_ne (fun heq => hyx ?_) _ _).trans hw', hu⟩
    exact localId_inj (hσ y (by rw [hy]; rfl)) hx heq

end Holds

theorem Site.Fits.isIdentifier {site : Site} {cx : Context} {L : Env} {Γ : CodeContext}
    (hfits : site.Fits cx L Γ) {x : Name} (hx : (site.localTypes x).isSome) :
    x.isIdentifier = true ∧ x ≠ .self := by
  obtain ⟨t, ht⟩ := Option.isSome_iff_exists.mp hx
  exact hfits.named ⟨x, t⟩ (Site.mem_locals.mpr ht)

/-- What the code of an expression starts from: the values of the visible locals are of their types
and in memory, and so are the constants. -/
structure Site.Live (site : Site) (cx : Context) (L : Env) (Γ : CodeContext) (σ : Valuation)
    (μ : Memory) : Prop extends site.Fits cx L Γ where
  distinct : Γ.module.NamesDistinct
  admits : cx.AdmitsAll L σ
  sees : site.Sees σ
  holds : Holds μ σ
  slots : ∀ l ∈ Γ.locals, (μ.locals l.1).isSome
  loaded : site.pool.Loaded μ.store

/-- Code leaves operands on the stack and the variables in memory. -/
structure Leaves (m : Module) (is : List Instr) (μ : Memory) (left : List Val) (σ : Valuation)
    (μ' : Memory) : Prop where
  does : m.Does is μ [] μ' left
  holds : Holds μ' σ
  keeps : μ.store.Keeps μ'.store
  slots : ∀ x, (μ.locals x).isSome → (μ'.locals x).isSome

namespace Leaves

variable {m : Module} {is js : List Instr} {μ μ₁ μ₂ : Memory} {us vs : List Val}
variable {σ σ₁ σ₂ : Valuation}

theorem of_does (h : m.Does is μ [] μ us) (hσ : Holds μ σ) : Leaves m is μ us σ μ :=
  ⟨h, hσ, .refl _, fun _ hx => hx⟩

theorem append (h : Leaves m is μ us σ₁ μ₁) (h' : Leaves m js μ₁ vs σ₂ μ₂) :
    Leaves m (is ++ js) μ (vs ++ us) σ₂ μ₂ :=
  ⟨h.does.append (h'.does.frame us), h'.holds, h.keeps.trans h'.keeps,
    fun x hx => h'.slots x (h.slots x hx)⟩

/-- Code that only works on the operands. -/
theorem followed (h : Leaves m is μ us σ μ₁) (hjs : m.Does js μ₁ us μ₁ vs) :
    Leaves m (is ++ js) μ vs σ μ₁ :=
  ⟨h.does.append hjs, h.holds, h.keeps, h.slots⟩

theorem ifElse {b : Bool} {yes no : List Instr} (t : ValType)
    (h : Leaves m is μ [.i32 (truth b)] σ₁ μ₁)
    (h' : Leaves m (if b then yes else no) μ₁ us σ₂ μ₂) :
    Leaves m (is ++ [.ifElse t yes no]) μ us σ₂ μ₂ :=
  ⟨h.does.append (.ifElse h'.does), h'.holds, h.keeps.trans h'.keeps,
    fun x hx => h'.slots x (h.slots x hx)⟩

end Leaves

/-! ## Pieces of code -/

section

variable {cx : Context} {L : Env} {Γ : CodeContext} {site : Site} {σ σ' : Valuation}
variable {μ μ' : Memory}

namespace Site.Live

variable (hlive : site.Live cx L Γ σ μ)

include hlive

theorem isIdentifier {x : Name} (hx : (σ x).isSome) : x.isIdentifier = true :=
  (hlive.toFits.isIdentifier (hlive.sees x hx)).1

theorem after (hcx : cx.Proper) {e e' : Expr} {v : Value} {t : Name} (he : Evaluates σ e' v σ')
    (ht : HasType cx L e e' t) {is : List Instr} {left : List Val}
    (hleaves : Leaves Γ.module is μ left σ' μ') : site.Live cx L Γ σ' μ' :=
  ⟨hlive.toFits, hlive.distinct, (HasType.admits hcx.rooted he ht hlive.admits).2,
    hlive.sees.after he, hleaves.holds, fun l hl => hleaves.slots _ (hlive.slots l hl),
    hlive.loaded.keep hleaves.keeps⟩

/-- A value of a class below the one that is wanted passes the cast to it. -/
theorem coerced {code : Code} {want : Name} {v : Value} {w : Val}
    (hcode : Leaves Γ.module code.instrs μ [w] σ' μ') (hw : Represents μ'.store w v)
    (hwant : ∀ c, v.class? = some c → cx.hierarchy.Inherits c want) :
    Leaves Γ.module (site.coerced want code) μ [w] σ' μ' := by
  unfold Site.coerced Site.coerce
  split
  · rw [List.append_nil]
    exact hcode
  · exact hcode.followed (.cast (hw.passes hlive.provides hwant))

theorem unboxed (hcx : cx.Proper) {code : Code} {c : Name} (hc : c = .int ∨ c = .bool) {v : Value}
    {w : Val} {n : Int32} (hcode : Leaves Γ.module code.instrs μ [w] σ' μ')
    (hw : Represents μ'.store w v) (hclass : v.class? = some c)
    (hbox : Boxes μ'.store c w (.i32 n)) :
    Leaves Γ.module (site.unboxed c code) μ [.i32 n] σ' μ' := by
  have hmem : c ∈ cx.hierarchy.names := by
    rcases hc with rfl | rfl <;> exact hcx.builtin_mem _ rfl
  refine (hlive.coerced hcode hw fun d hd => ?_).followed
    (does_unbox hlive.provides hlive.distinct hmem hc hbox)
  cases hclass.symm.trans hd
  exact .refl c

theorem unboxedInt (hcx : cx.Proper) {code : Code} {w : Val} {n : Int32}
    (hcode : Leaves Γ.module code.instrs μ [w] σ' μ') (hw : Represents μ'.store w (.int n)) :
    Leaves Γ.module (site.unboxed .int code) μ [.i32 n] σ' μ' := by
  refine hlive.unboxed hcx (.inl rfl) hcode hw rfl ?_
  cases hw
  assumption

theorem unboxedBool (hcx : cx.Proper) {code : Code} {w : Val} {b : Bool}
    (hcode : Leaves Γ.module code.instrs μ [w] σ' μ') (hw : Represents μ'.store w (.bool b)) :
    Leaves Γ.module (site.unboxed .bool code) μ [.i32 (truth b)] σ' μ' := by
  refine hlive.unboxed hcx (.inr rfl) hcode hw rfl ?_
  cases hw
  assumption

/-- A boxed integer is a new object. -/
theorem boxedInt (hcx : cx.Proper) {is : List Instr} {n : Int32}
    (his : Leaves Γ.module is μ [.i32 n] σ' μ') :
    ∃ μ'' w, Leaves Γ.module (boxed is .int).instrs μ [w] σ' μ'' ∧
      Represents μ''.store w (.int n) := by
  obtain ⟨table, htable⟩ := (hlive.loaded.keep his.keeps).table
  have hbox := does_boxInt hlive.provides hlive.distinct (hcx.builtin_mem _ rfl) htable n
  refine ⟨_, _, ⟨his.does.append hbox, ?_, his.keeps.trans (.alloc _ _), his.slots⟩,
    .int ⟨_, table, rfl, ?_⟩⟩
  · exact his.holds.of_eq (fun _ _ => rfl) (.alloc _ _)
  · simp [Memory.alloc]

theorem boxedBool {is : List Instr} {b : Bool}
    (his : Leaves Γ.module is μ [.i32 (truth b)] σ' μ') :
    ∃ μ'' w, Leaves Γ.module (boxed is .bool).instrs μ [w] σ' μ'' ∧
      Represents μ''.store w (.bool b) := by
  have hloaded := hlive.loaded.keep his.keeps
  obtain ⟨yes, hyes, hyes'⟩ := hloaded.bool true
  obtain ⟨no, hno, hno'⟩ := hloaded.bool false
  refine ⟨μ', _, his.followed (does_boxBool hlive.provides hlive.distinct hyes hno b), ?_⟩
  cases b with
  | true => exact hyes'
  | false => exact hno'

end Site.Live

end

/-- The code of an expression computes what the expression evaluates to. -/
structure Simulates (cx : Context) (σ : Valuation) (e' : Expr) (v : Value) (σ' : Valuation) :
    Prop where
  evaluates : Evaluates σ e' v σ'
  leaves : ∀ ⦃site : Site⦄ ⦃L : Env⦄ ⦃Γ : CodeContext⦄ ⦃e : Expr⦄ ⦃t : Name⦄ ⦃s s' : Progress⦄
    ⦃code : Code⦄ ⦃μ : Memory⦄, Lowers site e' s code s' → HasType cx L e e' t →
    (∀ n ∈ e.nodes, n.isNamed = true) → Declared Γ s' → site.Live cx L Γ σ μ →
    ∃ μ' w, Leaves Γ.module code.instrs μ [w] σ' μ' ∧ Represents μ'.store w v

namespace Simulates

variable {cx : Context} {σ σ₁ σ₂ σ' : Valuation} {m : Mark}

/-- The code of an expression also computes its value as one of a type it conforms to. -/
theorem coerced (hcx : cx.Proper) {e e' : Expr} {v : Value} (he : Simulates cx σ e' v σ')
    {site : Site} {L : Env} {Γ : CodeContext} {t u want : Name} {s s' : Progress} {code : Code}
    {μ : Memory} (hlower : Lowers site e' s code s') (ht : HasType cx L e e' t)
    (hn : ∀ n ∈ e.nodes, n.isNamed = true) (hd : Declared Γ s') (hlive : site.Live cx L Γ σ μ)
    (hconforms : cx.Conforms t u) (hwant : site.layout u = .ok want) :
    ∃ μ' w, Leaves Γ.module (site.coerced want code) μ [w] σ' μ' ∧ Represents μ'.store w v ∧
      site.Live cx L Γ σ' μ' ∧ cx.Admits u v := by
  obtain ⟨μ', w, hcode, hw⟩ := he.leaves hlower ht hn hd hlive
  have hv := (HasType.admits hcx.rooted he.evaluates ht hlive.admits).1.conforms hcx.rooted
    hconforms
  have hlayout := (Site.layout_eq_ok hwant).1
  rw [hlive.current] at hlayout
  subst hlayout
  exact ⟨μ', w, hlive.coerced hcode hw hv, hw, hlive.after hcx he.evaluates ht hcode, hv⟩

/-! ## Constants and variables -/

theorem int {token : String} {n : Int32} (hn : Literal.parse token = .ok n) :
    Simulates cx σ (.int m token) (.int n) σ := by
  refine ⟨.int hn, fun site L Γ e t s s' code μ hlower _ _ _ hlive => ?_⟩
  cases hlower with
  | int hn' hg =>
      cases hn.symm.trans hn'
      obtain ⟨w, hw, hrep⟩ := hlive.loaded.int n _ hg
      exact ⟨μ, w, .of_does (.getGlobal hw) hlive.holds, hrep⟩

theorem string {value : String} : Simulates cx σ (.string m value) (.string value) σ := by
  refine ⟨.string, fun site L Γ e t s s' code μ hlower _ _ _ hlive => ?_⟩
  cases hlower with
  | string hg =>
      obtain ⟨w, hw, hrep⟩ := hlive.loaded.text value _ hg
      exact ⟨μ, w, .of_does (.getGlobal hw) hlive.holds, hrep⟩

theorem bool {b : Bool} : Simulates cx σ (.bool m b) (.bool b) σ := by
  refine ⟨.bool, fun site L Γ e t s s' code μ hlower _ _ _ hlive => ?_⟩
  cases hlower with
  | bool =>
      obtain ⟨w, hw, hrep⟩ := hlive.loaded.bool b
      exact ⟨μ, w, .of_does (.getGlobal hw) hlive.holds, hrep⟩

theorem object {x : Name} {v : Value} (hx : σ x = some v) :
    Simulates cx σ (.object m x) v σ := by
  refine ⟨.object hx, fun site L Γ e t s s' code μ hlower _ _ _ hlive => ?_⟩
  have hlocal := hlive.sees x (by rw [hx]; rfl)
  cases hlower with
  | object hcode =>
      cases hcode with
      | self => exact absurd rfl (hlive.toFits.isIdentifier hlocal).2
      | field _ hlookup =>
          rw [Site.localTypes, hlookup] at hlocal
          cases hlocal
      | «local» =>
          obtain ⟨w, hw, hrep⟩ := hlive.holds x v hx
          exact ⟨μ, w, .of_does (.getLocal hw) hlive.holds, hrep⟩

theorem assign (hcx : cx.Proper) {x : Name} {e' : Expr} {v : Value}
    (he : Simulates cx σ e' v σ₁) (hx : (σ₁ x).isSome) :
    Simulates cx σ (.assign m x e') v (Function.update σ₁ x (some v)) := by
  refine ⟨.assign he.evaluates hx, fun site L Γ e t s s' code μ hlower h hn hd hlive => ?_⟩
  cases h with
  | assign hself hbound ht hconforms =>
      rw [Expr.nodes, List.forall_mem_cons] at hn
      cases hlower with
      | assignField hlookup =>
          have hlocal := hlive.sees.after he.evaluates x hx
          rw [Site.localTypes, hlookup] at hlocal
          cases hlocal
      | assignLocal hlookup hwant hvalue =>
          obtain rfl := hlive.type_of_lookup hself hbound hlookup
          obtain ⟨μ₁, w, hcode, hw, hlive₁, -⟩ :=
            he.coerced hcx hvalue ht hn.2 ⟨hd.locals, hd.funcs⟩ hlive hconforms hwant
          have hslot := hlive₁.slots _ (hlive.slot_mem hlookup)
          refine ⟨_, w, ⟨hcode.does.append (.teeLocal hslot w), ?_, hcode.keeps, ?_⟩, hw⟩
          · exact hcode.holds.setVariable (fun y hy => hlive₁.isIdentifier hy)
              (hlive₁.isIdentifier hx) hw
          · exact fun z hz => Memory.isSome_set (hcode.slots z hz) _ w

/-! ## Operators -/

section

variable (hcx : cx.Proper)

include hcx

/-- Operands are computed one after the other. -/
theorem operands {left' right' left right : Expr} {u v : Value} (hl : Simulates cx σ left' u σ₁)
    (hr : Simulates cx σ₁ right' v σ') {site : Site} {L : Env} {Γ : CodeContext} {t₁ t₂ : Name}
    {s s₁ s' : Progress} {l r : Code} {μ : Memory} (hleft : Lowers site left' s l s₁)
    (hright : Lowers site right' s₁ r s') (ht₁ : HasType cx L left left' t₁)
    (ht₂ : HasType cx L right right' t₂) (hn₁ : ∀ n ∈ left.nodes, n.isNamed = true)
    (hn₂ : ∀ n ∈ right.nodes, n.isNamed = true) (hd : Declared Γ s')
    (hlive : site.Live cx L Γ σ μ) :
    ∃ μ₁ w₁ μ₂ w₂, Leaves Γ.module l.instrs μ [w₁] σ₁ μ₁ ∧ Represents μ₁.store w₁ u ∧
      site.Live cx L Γ σ₁ μ₁ ∧ Leaves Γ.module r.instrs μ₁ [w₂] σ' μ₂ ∧
      Represents μ₂.store w₂ v := by
  obtain ⟨μ₁, w₁, hcode₁, hw₁⟩ := hl.leaves hleft ht₁ hn₁ (hd.before hright.grown) hlive
  have hlive₁ := hlive.after hcx hl.evaluates ht₁ hcode₁
  obtain ⟨μ₂, w₂, hcode₂, hw₂⟩ := hr.leaves hright ht₂ hn₂ hd hlive₁
  exact ⟨μ₁, w₁, μ₂, w₂, hcode₁, hw₁, hlive₁, hcode₂, hw₂⟩

theorem integers {op : BinaryOp} {left right : Expr} {a b : Int32} {v : Value}
    (hl : Simulates cx σ left (.int a) σ₁) (hr : Simulates cx σ₁ right (.int b) σ')
    (hv : op.value? a b = some v) (hrange : op = .divide → ¬ (a = .minValue ∧ b = -1)) :
    Simulates cx σ (.binary m op left right) v σ' := by
  refine ⟨.integers hl.evaluates hr.evaluates hv,
    fun site L Γ e t s s' code μ hlower h hn hd hlive => ?_⟩
  cases hlower with
  | equality => cases hv
  | integer hop hleft hright =>
      have hne : op ≠ .eq := by
        rintro rfl
        cases hop
      obtain ⟨_, l, r, rfl, ht₁, ht₂⟩ := h.integers hne
      rw [Expr.nodes, List.forall_mem_cons, List.forall_mem_append] at hn
      obtain ⟨μ₁, w₁, μ₂, w₂, hcode₁, hw₁, hlive₁, hcode₂, hw₂⟩ :=
        operands hcx hl hr hleft hright ht₁ ht₂ hn.2.1 hn.2.2 hd hlive
      have hboth := (hlive.unboxedInt hcx hcode₁ hw₁).append (hlive₁.unboxedInt hcx hcode₂ hw₂)
      rcases integer?_of_value? hop hv hrange with ⟨n, hclass, rfl, hn⟩ | ⟨c, hclass, rfl, hc⟩
      · rw [Site.integerCode, if_pos hclass]
        exact hlive.boxedInt hcx (hboth.followed (.integer hn))
      · rw [Site.integerCode, if_neg (Bool.eq_false_iff.mp hclass)]
        exact hlive.boxedBool (hboth.followed (.integer hc))

/-- The machine does not divide the least integer by -1, so the code of that division ends nowhere. -/
theorem not_executesAll_divide {left right : Expr} (hl : Simulates cx σ left (.int .minValue) σ₁)
    (hr : Simulates cx σ₁ right (.int (-1)) σ') {site : Site} {L : Env} {Γ : CodeContext}
    {e : Expr} {t : Name} {s s' : Progress} {code : Code} {μ : Memory}
    (hlower : Lowers site (.binary m .divide left right) s code s')
    (h : HasType cx L e (.binary m .divide left right) t) (hn : ∀ n ∈ e.nodes, n.isNamed = true)
    (hd : Declared Γ s') (hlive : site.Live cx L Γ σ μ) (rest : List Val) (o : Outcome) :
    ¬ ExecutesAll Γ.module code.instrs ⟨μ, rest⟩ o := by
  intro ho
  cases hlower with
  | integer hop hleft hright =>
      cases hop
      obtain ⟨_, l, r, rfl, ht₁, ht₂⟩ := h.integers (by decide)
      rw [Expr.nodes, List.forall_mem_cons, List.forall_mem_append] at hn
      obtain ⟨μ₁, w₁, μ₂, w₂, hcode₁, hw₁, hlive₁, hcode₂, hw₂⟩ :=
        operands hcx hl hr hleft hright ht₁ ht₂ hn.2.1 hn.2.2 hd hlive
      have hboth := (hlive.unboxedInt hcx hcode₁ hw₁).append (hlive₁.unboxedInt hcx hcode₂ hw₂)
      rw [Site.integerCode, boxed, List.append_assoc] at ho
      have hdivides := ExecutesAll.of_append (hboth.does rest) ho
      cases hdivides with
      | cons hi _ => exact not_executes_divS hi
      | leave hi => exact not_executes_divS hi

theorem equalInts {left right : Expr} {a b : Int32} (ht : left.type = .int)
    (hl : Simulates cx σ left (.int a) σ₁) (hr : Simulates cx σ₁ right (.int b) σ') :
    Simulates cx σ (.binary m .eq left right) (.bool (decide (a = b))) σ' := by
  refine ⟨.equalInts ht hl.evaluates hr.evaluates,
    fun site L Γ e t s s' code μ hlower h hn hd hlive => ?_⟩
  cases hlower with
  | integer hop => cases hop
  | equality htype hleft hright =>
      obtain rfl := ht.symm.trans (type_of_typeOf htype)
      obtain ⟨_, l, r, t₁, t₂, rfl, rfl, ht₁, ht₂⟩ := h.equands
      rw [Expr.nodes, List.forall_mem_cons, List.forall_mem_append] at hn
      obtain ⟨μ₁, w₁, μ₂, w₂, hcode₁, hw₁, hlive₁, hcode₂, hw₂⟩ :=
        operands hcx hl hr hleft hright ht₁ ht₂ hn.2.1 hn.2.2 hd hlive
      have hboth := (hlive.unboxedInt hcx hcode₁ hw₁).append (hlive₁.unboxedInt hcx hcode₂ hw₂)
      rw [Site.equality, if_pos (.inl rfl)]
      exact hlive.boxedBool (hboth.followed (.integer rfl))

theorem equalBools {left right : Expr} {a b : Bool} (ht : left.type = .bool)
    (hl : Simulates cx σ left (.bool a) σ₁) (hr : Simulates cx σ₁ right (.bool b) σ') :
    Simulates cx σ (.binary m .eq left right) (.bool (decide (a = b))) σ' := by
  refine ⟨.equalBools ht hl.evaluates hr.evaluates,
    fun site L Γ e t s s' code μ hlower h hn hd hlive => ?_⟩
  cases hlower with
  | integer hop => cases hop
  | equality htype hleft hright =>
      obtain rfl := ht.symm.trans (type_of_typeOf htype)
      obtain ⟨_, l, r, t₁, t₂, rfl, rfl, ht₁, ht₂⟩ := h.equands
      rw [Expr.nodes, List.forall_mem_cons, List.forall_mem_append] at hn
      obtain ⟨μ₁, w₁, μ₂, w₂, hcode₁, hw₁, hlive₁, hcode₂, hw₂⟩ :=
        operands hcx hl hr hleft hright ht₁ ht₂ hn.2.1 hn.2.2 hd hlive
      have hboth := (hlive.unboxedBool hcx hcode₁ hw₁).append
        (hlive₁.unboxedBool hcx hcode₂ hw₂)
      have htruth : Op.integer? .eq (truth a) (truth b) = some (truth (decide (a = b))) := by
        cases a <;> cases b <;> rfl
      rw [Site.equality, if_pos (.inr rfl)]
      exact hlive.boxedBool (hboth.followed (.integer htruth))

theorem neg {operand : Expr} {a : Int32} (he : Simulates cx σ operand (.int a) σ') :
    Simulates cx σ (.unary m .neg operand) (.int (.ofInt (-a.toInt))) σ' := by
  refine ⟨.neg he.evaluates, fun site L Γ e t s s' code μ hlower h hn hd hlive => ?_⟩
  obtain ⟨_, e₁, u, rfl, ht⟩ := h.operand
  rw [Expr.nodes, List.forall_mem_cons] at hn
  cases hlower with
  | neg hlower =>
      obtain ⟨μ₁, w, hcode, hw⟩ := he.leaves hlower ht hn.2 hd hlive
      have hzero : Leaves Γ.module [const 0] μ [.i32 0] σ μ := .of_does (.const 0) hlive.holds
      have hnegated : Op.integer? .sub 0 a = some (.ofInt (-a.toInt)) := by
        simp [Op.integer?, Int32.ofInt_neg]
      exact hlive.boxedInt hcx
        ((hzero.append (hlive.unboxedInt hcx hcode hw)).followed (.integer hnegated))

theorem comp {operand : Expr} {b : Bool} (he : Simulates cx σ operand (.bool b) σ') :
    Simulates cx σ (.unary m .comp operand) (.bool (!b)) σ' := by
  refine ⟨.comp he.evaluates, fun site L Γ e t s s' code μ hlower h hn hd hlive => ?_⟩
  obtain ⟨_, e₁, u, rfl, ht⟩ := h.operand
  rw [Expr.nodes, List.forall_mem_cons] at hn
  cases hlower with
  | comp hlower =>
      obtain ⟨μ₁, w, hcode, hw⟩ := he.leaves hlower ht hn.2 hd hlive
      have htruth : truth (decide (truth b = 0)) = truth (!b) := by cases b <;> rfl
      have hnot := (hlive.unboxedBool hcx hcode hw).followed (.eqz _)
      rw [htruth] at hnot
      exact hlive.boxedBool hnot

omit hcx in
theorem isvoid {operand : Expr} {v : Value} (he : Simulates cx σ operand v σ') :
    Simulates cx σ (.unary m .isvoid operand) (.bool (decide (v = .void))) σ' := by
  refine ⟨.isvoid he.evaluates, fun site L Γ e t s s' code μ hlower h hn hd hlive => ?_⟩
  obtain ⟨_, e₁, u, rfl, ht⟩ := h.operand
  rw [Expr.nodes, List.forall_mem_cons] at hn
  cases hlower with
  | isvoid hlower =>
      obtain ⟨μ₁, w, hcode, hw⟩ := he.leaves hlower ht hn.2 hd hlive
      have htest := hcode.followed (.isNull w)
      rw [decide_eq_decide.mpr hw.eq_null_iff] at htest
      exact hlive.boxedBool htest

/-! ## Control -/

theorem cond {pred onTrue onFalse : Expr} {b : Bool} {v : Value}
    (hpred : Simulates cx σ pred (.bool b) σ₁)
    (hbranch : Simulates cx σ₁ (if b then onTrue else onFalse) v σ') :
    Simulates cx σ (.cond m pred onTrue onFalse) v σ' := by
  refine ⟨.cond hpred.evaluates hbranch.evaluates,
    fun site L Γ e t s s' code μ hlower h hn hd hlive => ?_⟩
  cases h with
  | cond htest ht₁ ht₂ hjoin =>
      rw [Expr.nodes, List.forall_mem_cons, List.forall_mem_append, List.forall_mem_append] at hn
      cases hlower with
      | @cond _ _ _ _ _ want _ yes no _ _ _ _ hwant hlower hyes hno =>
          have hd₁ := hd.before hno.grown
          obtain ⟨μ₁, w, hcode, hw⟩ :=
            hpred.leaves hlower htest hn.2.1.1 (hd₁.before hyes.grown) hlive
          have hlive₁ := hlive.after hcx hpred.evaluates htest hcode
          have htaken : ∃ μ₂ u, Leaves Γ.module
              (if b then site.coerced want yes else site.coerced want no) μ₁ [u] σ' μ₂ ∧
              Represents μ₂.store u v := by
            cases b with
            | true =>
                obtain ⟨μ₂, u, hyes, hu, -⟩ := hbranch.coerced hcx hyes ht₁ hn.2.1.2 hd₁ hlive₁
                  (hjoin.upper _ (by simp)) hwant
                exact ⟨μ₂, u, hyes, hu⟩
            | false =>
                obtain ⟨μ₂, u, hno, hu, -⟩ := hbranch.coerced hcx hno ht₂ hn.2.2 hd hlive₁
                  (hjoin.upper _ (by simp)) hwant
                exact ⟨μ₂, u, hno, hu⟩
          obtain ⟨μ₂, u, htaken, hu⟩ := htaken
          exact ⟨μ₂, u, (hlive.unboxedBool hcx hcode hw).ifElse _ htaken, hu⟩

theorem loopExit {pred body : Expr} (hpred : Simulates cx σ pred (.bool false) σ') :
    Simulates cx σ (.loop m pred body) .void σ' := by
  refine ⟨.loopExit hpred.evaluates, fun site L Γ e t s s' code μ hlower h hn hd hlive => ?_⟩
  obtain ⟨_, _, _, _, rfl, ht, -⟩ := h.iteration
  rw [Expr.nodes, List.forall_mem_cons, List.forall_mem_append] at hn
  cases hlower with
  | loop hleave hnext htest hbody =>
      obtain ⟨μ₁, w, hcode, hw⟩ := hpred.leaves htest ht hn.2.1 (hd.before hbody.grown) hlive
      have hbool := hlive.unboxedBool hcx hcode hw
      have hlabels := label_ne s.frame.labels (s.frame.labels + 1)
      rw [← hleave, ← hnext] at hlabels
      exact ⟨μ₁, .null, ⟨.cons (.loopExit hlabels hbool.does) (.null _), hcode.holds, hcode.keeps,
        hcode.slots⟩, .void⟩

theorem loopAgain {pred body : Expr} {u v : Value} (hpred : Simulates cx σ pred (.bool true) σ₁)
    (hbody : Simulates cx σ₁ body u σ₂) (hloop : Simulates cx σ₂ (.loop m pred body) v σ') :
    Simulates cx σ (.loop m pred body) v σ' := by
  refine ⟨.loopAgain hpred.evaluates hbody.evaluates hloop.evaluates,
    fun site L Γ e t s s' code μ hlower h hn hd hlive => ?_⟩
  obtain ⟨_, _, _, _, rfl, ht, ht'⟩ := h.iteration
  have hn' := hn
  rw [Expr.nodes, List.forall_mem_cons, List.forall_mem_append] at hn'
  have hrest := fun μ hlive => hloop.leaves hlower h hn hd hlive (μ := μ)
  cases hlower with
  | loop _ _ htest hcode =>
      obtain ⟨μ₁, w, hleaves, hw⟩ := hpred.leaves htest ht hn'.2.1 (hd.before hcode.grown) hlive
      have hlive₁ := hlive.after hcx hpred.evaluates ht hleaves
      obtain ⟨μ₂, w', hleaves', -⟩ := hbody.leaves hcode ht' hn'.2.2 hd hlive₁
      have hlive₂ := hlive₁.after hcx hbody.evaluates ht' hleaves'
      obtain ⟨μ₃, w'', hleaves'', hv⟩ := hrest μ₂ hlive₂
      have hbool := hlive.unboxedBool hcx hleaves hw
      refine ⟨μ₃, w'', ⟨.loopAgain hbool.does hleaves'.does hleaves''.does, hleaves''.holds,
        hleaves.keeps.trans (hleaves'.keeps.trans hleaves''.keeps), fun x hx => ?_⟩, hv⟩
      exact hleaves''.slots x (hleaves'.slots x (hleaves.slots x hx))

end

end Simulates

/-! ## Sequences -/

/-- The code of the rest of a block computes its value, after code that computes the value before
it. -/
structure SimulatesRest (cx : Context) (σ : Valuation) (u : Value) (es' : List Expr) (v : Value)
    (σ' : Valuation) : Prop where
  evaluates : EvaluatesRest σ u es' v σ'
  leaves : ∀ ⦃site : Site⦄ ⦃L : Env⦄ ⦃Γ : CodeContext⦄ ⦃es : List Expr⦄ ⦃ts : List Name⦄
    ⦃s s' : Progress⦄ ⦃before code : Code⦄ ⦃μ μ₁ : Memory⦄ ⦃w : Val⦄,
    LowersRest site before es' s code s' → HasTypes cx L es es' ts →
    (∀ n ∈ Expr.nodesAll es, n.isNamed = true) → Declared Γ s' →
    Leaves Γ.module before.instrs μ [w] σ μ₁ → Represents μ₁.store w u →
    site.Live cx L Γ σ μ₁ →
    ∃ μ' w', Leaves Γ.module code.instrs μ [w'] σ' μ' ∧ Represents μ'.store w' v

namespace SimulatesRest

variable {cx : Context} {σ σ₁ σ' : Valuation}

theorem nil {v : Value} : SimulatesRest cx σ v [] v σ := by
  refine ⟨.nil, fun site L Γ es ts s s' before code μ μ₁ w hlower _ _ _ hbefore hw _ => ?_⟩
  cases hlower
  exact ⟨μ₁, w, hbefore, hw⟩

theorem cons (hcx : cx.Proper) {e' : Expr} {es' : List Expr} {u u' v : Value}
    (he : Simulates cx σ e' u' σ₁) (hes : SimulatesRest cx σ₁ u' es' v σ') :
    SimulatesRest cx σ u (e' :: es') v σ' := by
  refine ⟨.cons he.evaluates hes.evaluates,
    fun site L Γ es ts s s' before code μ μ₁ w hlower h hn hd hbefore hw hlive => ?_⟩
  cases h with
  | cons ht hts =>
      rw [Expr.nodesAll, List.forall_mem_append] at hn
      cases hlower with
      | cons hfirst hrest =>
          obtain ⟨μ₂, w₂, hcode, hw₂⟩ := he.leaves hfirst ht hn.1 (hd.before hrest.grown) hlive
          have hlive₂ := hlive.after hcx he.evaluates ht hcode
          have hsofar := (hbefore.followed (.drop w)).append hcode
          rw [List.append_assoc] at hsofar
          exact hes.leaves hrest hts hn.2 hd hsofar hw₂ hlive₂

end SimulatesRest

theorem Simulates.emptyBlock {cx : Context} {σ : Valuation} {m : Mark} :
    Simulates cx σ (.block m []) .void σ := by
  refine ⟨.block .nil, fun site L Γ e t s s' code μ hlower _ _ _ hlive => ?_⟩
  cases hlower with
  | blockNil => exact ⟨μ, .null, .of_does (.null _) hlive.holds, .void⟩

theorem Simulates.block {cx : Context} (hcx : cx.Proper) {σ σ₁ σ' : Valuation} {m : Mark}
    {e' : Expr} {es' : List Expr} {u v : Value} (he : Simulates cx σ e' u σ₁)
    (hes : SimulatesRest cx σ₁ u es' v σ') : Simulates cx σ (.block m (e' :: es')) v σ' := by
  refine ⟨.block (.cons he.evaluates hes.evaluates),
    fun site L Γ e t s s' code μ hlower h hn hd hlive => ?_⟩
  cases h with
  | block hts =>
      cases hts with
      | cons ht hts =>
          rw [Expr.nodes, List.forall_mem_cons, Expr.nodesAll, List.forall_mem_append] at hn
          cases hlower with
          | block hfirst hrest =>
              obtain ⟨μ₁, w, hcode, hw⟩ :=
                he.leaves hfirst ht hn.2.1 (hd.before hrest.grown) hlive
              have hlive₁ := hlive.after hcx he.evaluates ht hcode
              exact hes.leaves hrest hts hn.2.2 hd hcode hw hlive₁

/-! ## Bindings -/

/-- What a lifted function gets for a local: the value it binds, or what the local holds. -/
def liftedValue (μ : Memory) (x : Name) (w : Val) (z : String) : Val :=
  if z = localId x then w else (μ.locals z).getD .null

/-- The locals of a lifted function that are there from the start. -/
def liftedNames (site : Site) (x type : Name) : List String :=
  selfLocal :: (site.localsWith x type).map fun p => localId p.name

section

variable {cx : Context} {L : Env} {Γ : CodeContext} {site : Site} {σ σ' : Valuation}
variable {μ : Memory} {x type : Name} {w : Val}

theorem liftedValue_of_ne {z : String} (hz : z ≠ localId x) {u : Val}
    (hu : μ.locals z = some u) : liftedValue μ x w z = u := by
  rw [liftedValue, if_neg hz, hu]
  rfl

theorem selfLocal_ne (hx : x.isIdentifier = true) (hself : x ≠ .self) :
    selfLocal ≠ localId x := by
  rw [← localId_self]
  exact fun heq => hself (localId_inj (by decide) hx heq).symm

variable (hlive : site.Live cx L Γ σ μ) (hx : x.isIdentifier = true) (hself : x ≠ .self)

include hlive hx hself

/-- The arguments of a lifted function. -/
theorem Site.Live.does_liftedArgs {tmp : String} (htmp : μ.locals tmp = some w) :
    Γ.module.Does (site.liftedArgs x type (getLocal tmp)) μ [] μ
      ((liftedNames site x type).map (liftedValue μ x w)).reverse := by
  have hreceiver : Γ.module.Does [getLocal selfLocal] μ [] μ [liftedValue μ x w selfLocal] := by
    obtain ⟨u, hu⟩ := Option.isSome_iff_exists.mp (hlive.slots _ hlive.self)
    rw [liftedValue_of_ne (selfLocal_ne hx hself) hu]
    exact .getLocal hu
  rw [liftedNames, List.map_cons, List.reverse_cons, List.map_map]
  refine hreceiver.cons (Module.Does.frame (.pushes_map fun p hp => ?_) _)
  rcases mem_locals_of_localsWith hx hp with ⟨hname, -⟩ | ⟨hname, hp⟩
  · rw [if_pos hname, Function.comp_apply, hname, liftedValue, if_pos rfl]
    exact .getLocal htmp
  · obtain ⟨u, hu⟩ := Option.isSome_iff_exists.mp
      (hlive.slots _ (hlive.locals _ (List.mem_map_of_mem hp)))
    have hne : localId p.name ≠ localId x :=
      fun heq => hname (localId_inj (hlive.named p hp).1 hx heq)
    rw [if_neg hname, Function.comp_apply, liftedValue_of_ne hne hu]
    exact .getLocal hu

/-- The body of a lifted function starts from the variables around it and the one it binds. -/
theorem Site.Live.lift (ht : cx.IsType type) {u : Value} (hu : cx.Admits type u)
    (hw : Represents μ.store w u) {entry : String → Option Val}
    (hentry : ∀ z ∈ liftedNames site x type, entry z = some (liftedValue μ x w z))
    {locals : List (String × ValType)} (hlocals : ∀ l ∈ locals, (entry l.1).isSome) :
    (site.bind x type).Live cx (L.bind x type)
      ⟨Γ.module, (selfLocal, valueType cx.current) ::
        ([] ++ Lowering.slots cx.current (site.localsWith x type)) ++ locals⟩
      (Function.update σ x (some u)) ⟨μ.store, entry⟩ := by
  refine ⟨hlive.toFits.lift hx hself ht locals, hlive.distinct, hlive.admits.bind x hu,
    hlive.sees.bind x type u, fun y v hy => ?_, fun l hl => ?_, hlive.loaded⟩
  · have hmem : localId y ∈ liftedNames site x type := by
      obtain ⟨t, ht⟩ := Option.isSome_iff_exists.mp
        (hlive.sees.bind x type u y (by rw [hy]; rfl))
      rw [Site.localTypes_bind, ← passed_of_isIdentifier hx] at ht
      exact List.mem_cons_of_mem _ (List.mem_map.mpr ⟨⟨y, t⟩, Site.mem_localsWith.mpr ht, rfl⟩)
    refine ⟨_, hentry _ hmem, ?_⟩
    by_cases hyx : y = x
    · rw [hyx, Function.update_self, Option.some.injEq] at hy
      rw [hyx, liftedValue, if_pos rfl]
      exact hy ▸ hw
    · rw [Function.update_of_ne hyx] at hy
      obtain ⟨w', hw', hv⟩ := hlive.holds y v hy
      have hne : localId y ≠ localId x :=
        fun heq => hyx (localId_inj (hlive.isIdentifier (by rw [hy]; rfl)) hx heq)
      rw [liftedValue_of_ne hne hw']
      exact hv
  · rcases List.mem_append.mp hl with hl | hl
    · have hmem : l.1 ∈ liftedNames site x type := by
        rcases List.mem_cons.mp hl with rfl | hl
        · exact List.mem_cons_self
        · obtain ⟨p, hp, rfl⟩ := List.mem_map.mp hl
          exact List.mem_cons_of_mem _ (List.mem_map_of_mem hp)
      exact Option.isSome_of_eq_some (hentry _ hmem)
    · exact hlocals l hl

end

/-- The locals of a caller after a lifted function handed some back. -/
def handedOver (μ μ' : Memory) (back : List (Name × ValType)) : Memory :=
  Memory.setAll ⟨μ'.store, μ.locals⟩ (back.map fun q => localId q.1)
    fun z => (μ'.locals z).getD .null

theorem isSome_handedOver {μ μ' : Memory} {back : List (Name × ValType)} {z : String}
    (hz : (μ.locals z).isSome) : ((handedOver μ μ' back).locals z).isSome := by
  rw [handedOver, Memory.setAll_locals]
  split
  · rfl
  · exact hz

theorem handedOver_store (μ μ' : Memory) (back : List (Name × ValType)) :
    (handedOver μ μ' back).store = μ'.store :=
  Memory.setAll_store _ _ _

theorem does_callLifted {m : Module} (hdistinct : m.NamesDistinct) {name : String}
    {params locals : List (String × ValType)} {value : ValType} {back : List (Name × ValType)}
    {body : List Instr} (hf : liftedFunc name params value back locals body ∈ m.funcs)
    {μ μ' : Memory} {args : List Val} (hargs : args.length = params.length) {w : Val}
    (hbody : m.Does body ⟨μ.store, (liftedFunc name params value back locals body).entry args⟩ []
      μ' [w])
    (hinner : ∀ q ∈ back, (μ'.locals (localId q.1)).isSome)
    (houter : ∀ q ∈ back, (μ.locals (localId q.1)).isSome) :
    m.Does (callLifted name back) μ args.reverse (handedOver μ μ' back) [w] := by
  have hgets : m.Does (back.map fun q => getLocal (localId q.1)) μ' [] μ'
      (back.map fun q => (μ'.locals (localId q.1)).getD .null).reverse := by
    refine .pushes_map fun q hq => ?_
    obtain ⟨u, hu⟩ := Option.isSome_iff_exists.mp (hinner q hq)
    rw [hu]
    exact .getLocal hu
  have hcall := Module.Does.call (hdistinct.definitions_of_mem hf) args hargs
    (hbody.append (hgets.frame [w])) (by simp [liftedFunc])
  have hstore : m.Does (back.reverse.map fun q => .plain (.localSet (localId q.1)) [])
      ⟨μ'.store, μ.locals⟩ (back.map fun q => (μ'.locals (localId q.1)).getD .null).reverse
      (handedOver μ μ' back) [] := by
    have hset := Module.Does.setLocals (m := m) (μ := ⟨μ'.store, μ.locals⟩)
      (List.forall_mem_map.mpr houter) fun z => (μ'.locals z).getD .null
    rwa [← List.map_reverse, List.map_map, List.map_map] at hset
  exact hcall.cons (hstore.frame [w])

/-- The variables around a binding lie in the locals of the caller again: those the function assigns
as it left them, and the others as they were. -/
theorem Holds.handedOver {μ μ' : Memory} {σ σ₂ : Valuation} {x : Name}
    {back : List (Name × ValType)} (hμ : Holds μ σ) (hμ' : Holds μ' σ₂)
    (hkeeps : μ.store.Keeps μ'.store)
    (hunchanged : ∀ y, y ∉ back.map (·.1) → Function.update σ₂ x (σ x) y = σ y)
    (hnamed : ∀ y, (Function.update σ₂ x (σ x) y).isSome → y.isIdentifier = true)
    (hback : ∀ q ∈ back, q.1.isIdentifier = true ∧ q.1 ≠ x) :
    Holds (handedOver μ μ' back) (Function.update σ₂ x (σ x)) := by
  intro y v hy
  rw [Lowering.handedOver, Memory.setAll_locals, Memory.setAll_store]
  by_cases hmem : localId y ∈ back.map fun q => localId q.1
  · obtain ⟨q, hq, hid⟩ := List.mem_map.mp hmem
    have hqy := localId_inj (hback q hq).1 (hnamed y (by rw [hy]; rfl)) hid
    rw [Function.update_of_ne (hqy ▸ (hback q hq).2)] at hy
    obtain ⟨w, hw, hv⟩ := hμ' y v hy
    exact ⟨w, by rw [if_pos hmem, hw]; rfl, hv⟩
  · have hnot : y ∉ back.map (·.1) := by
      intro hy'
      obtain ⟨q, hq, hqy⟩ := List.mem_map.mp hy'
      exact hmem (List.mem_map.mpr ⟨q, hq, congrArg localId hqy⟩)
    rw [hunchanged y hnot] at hy
    obtain ⟨w, hw, hv⟩ := hμ y v hy
    exact ⟨w, by rw [if_neg hmem, hw], hv.keep hkeeps⟩

/-- The function around a binding, called with the value it binds, computes the value of its body
and puts what the body assigns into the locals of the caller. -/
theorem Simulates.lifted {cx : Context} (hcx : cx.Proper) {L : Env} {Γ : CodeContext} {site : Site}
    {σ σ₂ : Valuation} {μ : Memory} {x type value t : Name} {w : Val} {name tmp : String}
    {e body : Expr} {u v : Value} {s s' : Progress} {back : List (Name × ValType)}
    (hbody : Simulates cx (Function.update σ x (some u)) body v σ₂)
    (hlift : Lifts site name x type value body s back s')
    (ht : HasType cx (L.bind x type) e body t) (hn : ∀ n ∈ e.nodes, n.isNamed = true)
    (hx : x.isIdentifier = true) (hself : x ≠ .self) (htype : cx.IsType type)
    (hvalue : site.layout t = .ok value) (hlive : site.Live cx L Γ σ μ)
    (hfuncs : ∀ f ∈ s'.funcs, f ∈ Γ.module.funcs) (hu : cx.Admits type u)
    (htmp : μ.locals tmp = some w) (hw : Represents μ.store w u) :
    ∃ μ' w', Leaves Γ.module (site.liftedArgs x type (getLocal tmp) ++ callLifted name back) μ [w']
      (Function.update σ₂ x (σ x)) μ' ∧ Represents μ'.store w' v := by
  have hunchanged : ∀ y, y ∉ back.map (·.1) → Function.update σ₂ x (σ x) y = σ y :=
    fun y hy => hlift.unchanged hlive.sees hbody.evaluates
      (fun hcode => Evaluates.unchanged hbody.evaluates hcode (hlive.sees.bind _ _ _)) hy
  cases hlift with
  | @mk _ _ _ _ _ _ ps _ code _ s₁ hps hlower hback =>
      obtain ⟨rfl, -⟩ := Site.typedLocals_eq_ok hps
      have hnew := hfuncs _ (List.mem_append_right _ (List.mem_singleton_self _))
      have hkept := fun f hf => hfuncs f (List.mem_append_left _ hf)
      have hmem : ∀ q ∈ back, ∃ p ∈ site.locals, p.name ≠ x ∧
          q = Site.typedLocal site.current p := by
        intro q hq
        obtain ⟨hq, hne⟩ := mem_handedBack (hback ▸ hq)
        obtain ⟨p, hp, rfl⟩ := List.mem_map.mp hq
        have hpx : p.name ≠ x := hne
        rcases mem_locals_of_localsWith hx hp with ⟨heq, -⟩ | ⟨-, hp⟩
        · exact absurd heq hpx
        · exact ⟨p, hp, hpx, rfl⟩
      generalize hf : liftedFunc name _ _ back s₁.frame.locals _ = f at hnew
      have hnames : f.params.map (·.1) = liftedNames site x type := by
        simp [← hf, liftedFunc, liftedParams, liftedNames, Site.typedLocal]
      have hentry := f.entry_map (liftedValue μ x w)
      have hlocals := fun l => f.isSome_entry_map (liftedValue μ x w) (l := l)
      rw [hnames] at hentry hlocals
      subst hf
      have hinner := hlive.lift hx hself htype hu hw (fun z hz => (hentry z).trans (if_pos hz))
        hlocals
      have hdeclared : Declared ⟨Γ.module, (selfLocal, valueType cx.current) ::
          ([] ++ slots cx.current (site.localsWith x type)) ++ s₁.frame.locals⟩ s₁ :=
        ⟨fun _ hl => List.mem_append_right _ hl, hkept⟩
      obtain ⟨μ₂, w₂, hcode, hw₂, hlive₂, -⟩ := hbody.coerced hcx hlower ht hn hdeclared hinner
        (.refl (ht.isType hcx.toInstalled hinner.covers)) hvalue
      have hslots : ∀ q ∈ back,
          (μ.locals (localId q.1)).isSome ∧ (μ₂.locals (localId q.1)).isSome := by
        intro q hq
        obtain ⟨p, hp, hpx, rfl⟩ := hmem q hq
        refine ⟨hlive.slots _ (hlive.locals _ (List.mem_map_of_mem hp)), hlive₂.slots _
          (hlive₂.locals _ (List.mem_map_of_mem (a := p) ?_))⟩
        rw [Site.mem_locals, Site.localTypes_bind, Env.bind, if_neg hpx]
        exact Site.mem_locals.mp hp
      have hcall := does_callLifted hlive.distinct hnew (by simp [liftedNames, liftedParams])
        hcode.does (fun q hq => (hslots q hq).2) (fun q hq => (hslots q hq).1)
      refine ⟨_, w₂, ⟨(hlive.does_liftedArgs hx hself htmp).append hcall, ?_, ?_,
        fun z hz => isSome_handedOver hz⟩, ?_⟩
      · refine hlive.holds.handedOver hlive₂.holds hcode.keeps hunchanged (fun y hy => ?_) ?_
        · by_cases hyx : y = x
          · exact hyx ▸ hx
          · rw [Function.update_of_ne hyx, hbody.evaluates.isSome_eq,
              Function.update_of_ne hyx] at hy
            exact hlive.isIdentifier hy
        · intro q hq
          obtain ⟨p, hp, hpx, rfl⟩ := hmem q hq
          exact ⟨(hlive.named p hp).1, hpx⟩
      · rw [handedOver_store]
        exact hcode.keeps
      · rw [handedOver_store]
        exact hw₂

/-- A variable that is not initialized starts with the value of its type. -/
theorem Site.Live.does_default {cx : Context} {L : Env} {Γ : CodeContext} {site : Site}
    {σ : Valuation} {μ : Memory} (hlive : site.Live cx L Γ σ μ) {type : Name} {i : Instr}
    (hi : site.Defaults type i) :
    ∃ w, Γ.module.Does [i] μ [] μ [w] ∧ Represents μ.store w (.initial type) := by
  cases hi with
  | int hg =>
      obtain ⟨w, hw, hrep⟩ := hlive.loaded.int 0 _ hg
      exact ⟨w, .getGlobal hw, hrep⟩
  | string hg =>
      obtain ⟨w, hw, hrep⟩ := hlive.loaded.text "" _ hg
      exact ⟨w, .getGlobal hw, hrep⟩
  | bool =>
      obtain ⟨w, hw, hrep⟩ := hlive.loaded.bool false
      exact ⟨w, .getGlobal hw, hrep⟩
  | void hprim _ =>
      have hvoid : Value.initial type = .void := by
        simp only [Name.isPrimitive, Bool.or_eq_false_iff, decide_eq_false_iff_not] at hprim
        rw [Value.initial, if_neg hprim.1.1, if_neg hprim.2, if_neg hprim.1.2]
      rw [hvoid]
      exact ⟨.null, .null _, .void⟩

namespace Simulates

variable {cx : Context} (hcx : cx.Proper) {σ σ₁ σ₂ : Valuation} {m : Mark} {x type : Name}
variable {init body : Expr} {u v : Value}

include hcx

/-- A binding computes the value it binds into a scratch local, and calls its function. -/
theorem binding {L : Env} {Γ : CodeContext} {site : Site} {μ μ₁ : Memory} {value t : Name} {w : Val}
    {name tmp : String} {vt : ValType} {e : Expr} {first : List Instr} {s s' : Progress}
    {back : List (Name × ValType)}
    (hbody : Simulates cx (Function.update σ₁ x (some u)) body v σ₂)
    (hlift : Lifts site name x type value body s back s')
    (ht : HasType cx (L.bind x type) e body t) (hn : ∀ n ∈ e.nodes, n.isNamed = true)
    (hx : x.isIdentifier = true) (hself : x ≠ .self) (htype : cx.IsType type)
    (hvalue : site.layout t = .ok value) (hfuncs : ∀ f ∈ s'.funcs, f ∈ Γ.module.funcs)
    (hsharp : IsSharp tmp) (htmp : (tmp, vt) ∈ Γ.locals)
    (hfirst : Leaves Γ.module first μ [w] σ₁ μ₁) (hw : Represents μ₁.store w u)
    (hlive : site.Live cx L Γ σ₁ μ₁) (hu : cx.Admits type u) :
    ∃ μ' w', Leaves Γ.module (first ++ [.plain (.localSet tmp) []] ++
        site.liftedArgs x type (getLocal tmp) ++ callLifted name back) μ [w']
      (Function.update σ₂ x (σ₁ x)) μ' ∧ Represents μ'.store w' v := by
  have hslots := fun l hl => Memory.isSome_set (hlive.slots l hl) tmp w
  have hholds := hlive.holds.setSharp (fun y hy => hlive.isIdentifier hy) hsharp w
  have hlive' : site.Live cx L Γ σ₁ (μ₁.set tmp w) :=
    ⟨hlive.toFits, hlive.distinct, hlive.admits, hlive.sees, hholds, hslots, hlive.loaded⟩
  have hstored : Leaves Γ.module (first ++ [.plain (.localSet tmp) []]) μ [] σ₁ (μ₁.set tmp w) :=
    ⟨hfirst.does.append (.setLocal (hlive.slots _ htmp) w), hholds, hfirst.keeps,
      fun z hz => Memory.isSome_set (hfirst.slots z hz) tmp w⟩
  obtain ⟨μ', w', hcall, hv⟩ := hbody.lifted hcx hlift ht hn hx hself htype hvalue hlive' hfuncs hu
    (Function.update_self _ _ _) hw
  rw [List.append_assoc]
  exact ⟨μ', w', hstored.append hcall, hv⟩

theorem letIn (hpresent : init.isAbsent = false) (hinit : Simulates cx σ init u σ₁)
    (hbody : Simulates cx (Function.update σ₁ x (some u)) body v σ₂) :
    Simulates cx σ (.letIn m x type init body) v (Function.update σ₂ x (σ₁ x)) := by
  refine ⟨.letIn hpresent hinit.evaluates hbody.evaluates,
    fun site L Γ e t s s' code μ hlower h hn hd hlive => ?_⟩
  cases hlower with
  | letIn hdeclared hfirst hvalue hname hlift =>
      have hmark := h.type_eq
      obtain ⟨_, init₀, body₀, rfl, hself, htype, hinitial, ht⟩ := h.binding
      rw [Expr.nodes, List.forall_mem_cons, List.forall_mem_append] at hn
      obtain ⟨hframe, hgrows⟩ := hlift.grown (r := .binding _) hname
      have hd' := (Declared.of_frame hframe hgrows hd.locals hd.funcs).uncounted
      cases hfirst with
      | default habsent => cases hpresent.symm.trans habsent
      | value _ hcode =>
          rcases hinitial with habsent | ⟨t₀, ht₀, hconforms⟩
          · cases hpresent.symm.trans habsent
          · obtain ⟨μ₁, w, hleaves, hw, hlive₁, hu⟩ := hinit.coerced hcx hcode ht₀ hn.2.1
              hd'.beforeTemp hlive hconforms hdeclared
            exact hbody.binding hcx hlift ht hn.2.2 hn.1 hself htype (hmark ▸ hvalue) hd.funcs
              (isSharp_tempName _) hd'.temp hleaves hw hlive₁ hu

theorem letDefault (habsent : init.isAbsent = true)
    (hbody : Simulates cx (Function.update σ x (some (.initial type))) body v σ₂) :
    Simulates cx σ (.letIn m x type init body) v (Function.update σ₂ x (σ x)) := by
  refine ⟨.letDefault habsent hbody.evaluates,
    fun site L Γ e t s s' code μ hlower h hn hd hlive => ?_⟩
  cases hlower with
  | letIn hdeclared hfirst hvalue hname hlift =>
      have hmark := h.type_eq
      obtain ⟨_, init₀, body₀, rfl, hself, htype, -, ht⟩ := h.binding
      rw [Expr.nodes, List.forall_mem_cons, List.forall_mem_append] at hn
      obtain ⟨hframe, hgrows⟩ := hlift.grown (r := .binding _) hname
      have hd' := (Declared.of_frame hframe hgrows hd.locals hd.funcs).uncounted
      cases hfirst with
      | value hpresent => cases hpresent.symm.trans habsent
      | default _ hi =>
          obtain ⟨w, hdefault, hw⟩ := hlive.does_default hi
          exact hbody.binding hcx hlift ht hn.2.2 hn.1 hself htype (hmark ▸ hvalue) hd.funcs
            (isSharp_tempName _) hd'.temp (.of_does hdefault hlive.holds) hw hlive (.initial _)

end Simulates

/-! ## Evaluation -/

mutual

/-- The code of an expression computes whatever the expression evaluates to, unless evaluation
divides the least integer by -1. -/
theorem simulates {cx : Context} (hcx : cx.Proper) : ∀ {σ σ' : Valuation} {e' : Expr} {v : Value},
    Evaluates σ e' v σ' → ¬ Overflows σ e' → Simulates cx σ e' v σ'
  | _, _, _, _, .int hn, _ => .int hn
  | _, _, _, _, .string, _ => .string
  | _, _, _, _, .bool, _ => .bool
  | _, _, _, _, .object hx, _ => .object hx
  | _, _, _, _, .assign he hx, h => .assign hcx (simulates hcx he fun ho => h (.assign ho)) hx
  | _, _, _, _, .block .nil, _ => .emptyBlock
  | _, _, _, _, .block (.cons he hes), h =>
      .block hcx (simulates hcx he fun ho => h (.block (.head ho)))
        (simulatesRest hcx hes fun ho => h (.block (.tail he ho)))
  | _, _, _, _, .cond hpred hbranch, h =>
      .cond hcx (simulates hcx hpred fun ho => h (.condPred ho))
        (simulates hcx hbranch fun ho => h (.condBranch hpred ho))
  | _, _, _, _, .loopExit hpred, h =>
      .loopExit hcx (simulates hcx hpred fun ho => h (.loopPred ho))
  | _, _, _, _, .loopAgain hpred hbody hloop, h =>
      .loopAgain hcx (simulates hcx hpred fun ho => h (.loopPred ho))
        (simulates hcx hbody fun ho => h (.loopBody hpred ho))
        (simulates hcx hloop fun ho => h (.loopAgain hpred hbody ho))
  | _, _, _, _, .letIn hpresent hinit hbody, h =>
      .letIn hcx hpresent (simulates hcx hinit fun ho => h (.letInit hpresent ho))
        (simulates hcx hbody fun ho => h (.letBody hpresent hinit ho))
  | _, _, _, _, .letDefault habsent hbody, h =>
      .letDefault hcx habsent (simulates hcx hbody fun ho => h (.letDefault habsent ho))
  | _, _, _, _, .integers hl hr hv, h =>
      .integers hcx (simulates hcx hl fun ho => h (.left ho))
        (simulates hcx hr fun ho => h (.right hl ho)) hv
        (by rintro rfl ⟨rfl, rfl⟩; exact h (.divide hl hr))
  | _, _, _, _, .equalInts ht hl hr, h =>
      .equalInts hcx ht (simulates hcx hl fun ho => h (.left ho))
        (simulates hcx hr fun ho => h (.right hl ho))
  | _, _, _, _, .equalBools ht hl hr, h =>
      .equalBools hcx ht (simulates hcx hl fun ho => h (.left ho))
        (simulates hcx hr fun ho => h (.right hl ho))
  | _, _, _, _, .neg he, h => .neg hcx (simulates hcx he fun ho => h (.operand ho))
  | _, _, _, _, .comp he, h => .comp hcx (simulates hcx he fun ho => h (.operand ho))
  | _, _, _, _, .isvoid he, h => .isvoid (simulates hcx he fun ho => h (.operand ho))

theorem simulatesRest {cx : Context} (hcx : cx.Proper) : ∀ {σ σ' : Valuation} {es' : List Expr}
    {u v : Value}, EvaluatesRest σ u es' v σ' → ¬ OverflowsRest σ es' →
    SimulatesRest cx σ u es' v σ'
  | _, _, _, _, _, .nil, _ => .nil
  | _, _, _, _, _, .cons he hes, h =>
      .cons hcx (simulates hcx he fun ho => h (.head ho))
        (simulatesRest hcx hes fun ho => h (.tail he ho))

end

end Cool.Lowering
