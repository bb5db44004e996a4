import Cool.Proofs.Lowering.Growth
import Cool.Proofs.Lowering.Pieces
import Cool.Proofs.Typing.Evaluation

/-! The variables that lowering notes as assigned. Evaluation changes no others, so a function that
hands those back hands back everything its body changes. -/

namespace Cool.Lowering

open Wat Typing

/-- Every variable is a visible local. -/
def Site.Sees (site : Site) (σ : Valuation) : Prop :=
  ∀ x, (σ x).isSome → (site.localTypes x).isSome

namespace Site.Sees

variable {site : Site} {σ σ' : Valuation}

theorem after (h : site.Sees σ) {e : Expr} {v : Value} (he : Evaluates σ e v σ') :
    site.Sees σ' :=
  fun x hx => h x (he.isSome_eq x ▸ hx)

theorem bind (h : site.Sees σ) (x type : Name) (v : Value) :
    (site.bind x type).Sees (Function.update σ x (some v)) := by
  intro y hy
  rw [Site.localTypes_bind, Env.bind]
  by_cases hyx : y = x
  · rw [if_pos hyx]
    rfl
  · rw [if_neg hyx]
    rw [Function.update_of_ne hyx] at hy
    exact h y hy

end Site.Sees

/-- What a function around a binding assigns is handed back, unless it is the variable it binds. -/
theorem mem_handedBack_of_assigned {site : Site} {x y type current : Name} {assigned : List Name}
    (hy : (site.localTypes y).isSome) (hyx : y ≠ x) (hassigned : y ∈ assigned) :
    y ∈ (handedBack ((site.localsWith x type).map (Site.typedLocal current)) assigned
      x).map (·.1) := by
  obtain ⟨t, ht⟩ := Option.isSome_iff_exists.mp hy
  have hmem : (⟨y, t⟩ : Parameter) ∈ site.localsWith x type := by
    rw [Site.mem_localsWith, passed_of_ne hyx]
    exact ht
  refine List.mem_map.mpr ⟨_, List.mem_filter.mpr ⟨List.mem_map_of_mem hmem, ?_⟩, rfl⟩
  simp [Site.typedLocal, hyx, hassigned]

/-- Around a binding, no variable changes that its function does not hand back. -/
theorem Lifts.unchanged {site : Site} {name : String} {x type value : Name} {body : Expr}
    {s s' : Progress} {back : List (Name × ValType)}
    (h : Lifts site name x type value body s back s') {σ σ' : Valuation} (hsees : site.Sees σ)
    {u v : Value}
    (hbody : Evaluates (Function.update σ x (some u)) body v σ')
    (hkept : ∀ {code : Code} {s s' : Progress}, Lowers (site.bind x type) body s code s' →
      ∀ y, y ∉ s'.frame.assigned → σ' y = Function.update σ x (some u) y)
    {y : Name} (hback : y ∉ back.map (·.1)) : Function.update σ' x (σ x) y = σ y := by
  by_cases hyx : y = x
  · rw [hyx, Function.update_self]
  · have hsame : Function.update σ x (some u) y = σ y := Function.update_of_ne hyx _ _
    rw [Function.update_of_ne hyx]
    cases h with
    | mk hps hlower heq =>
        obtain ⟨rfl, -⟩ := Site.typedLocals_eq_ok hps
        subst heq
        cases hy : σ y with
        | none =>
            have hnone := hbody.isSome_eq y
            rw [hsame, hy] at hnone
            exact Option.not_isSome_iff_eq_none.mp (Bool.eq_false_iff.mp hnone)
        | some w =>
            rw [← hy, ← hsame]
            refine hkept hlower y fun hassigned => hback ?_
            exact mem_handedBack_of_assigned (hsees y (by rw [hy]; rfl)) hyx hassigned

/-! ## Parts of expressions -/

section

variable {site : Site} {code : Code} {s s' : Progress}

theorem Lowers.operands {m : Mark} {op : BinaryOp} {left right : Expr}
    (h : Lowers site (.binary m op left right) s code s') :
    ∃ l r s₁, Lowers site left s l s₁ ∧ Lowers site right s₁ r s' := by
  cases h with
  | equality _ hl hr => exact ⟨_, _, _, hl, hr⟩
  | integer _ hl hr => exact ⟨_, _, _, hl, hr⟩

/-- Either branch is lowered, and what it assigns is noted. -/
theorem Lowers.branch {onTrue onFalse : Expr} {s₁ : Progress} {yes no : Code} (b : Bool)
    (hyes : Lowers site onTrue s yes s₁) (hno : Lowers site onFalse s₁ no s') :
    ∃ code t t', Lowers site (if b then onTrue else onFalse) t code t' ∧
      ∀ y ∈ t'.frame.assigned, y ∈ s'.frame.assigned := by
  cases b with
  | true => exact ⟨_, _, _, hyes, hno.grown.frame.assigned⟩
  | false => exact ⟨_, _, _, hno, fun _ hy => hy⟩

/-- What a binding does not assign was not assigned before its function, nor handed back. -/
theorem Lifts.not_mem {name : String} {x type value y : Name} {body : Expr}
    {back : List (Name × ValType)} {t : ValType}
    (h : Lifts site name x type value body (s.withTemp t).counted back s')
    (hy : y ∉ (s'.noting (back.map (·.1))).frame.assigned) :
    y ∉ s.frame.assigned ∧ y ∉ back.map (·.1) := by
  cases h with
  | mk => exact not_or.mp fun hmem => hy (List.mem_append.mpr hmem)

end

mutual

/-- Evaluation leaves a variable as it is unless lowering noted that it is assigned. -/
theorem Evaluates.unchanged : ∀ {σ σ' : Valuation} {e : Expr} {v : Value}, Evaluates σ e v σ' →
    ∀ {site : Site} {code : Code} {s s' : Progress}, Lowers site e s code s' → site.Sees σ →
    ∀ y, y ∉ s'.frame.assigned → σ' y = σ y
  | _, _, _, _, .int _, _, _, _, _, _, _, _, _ => rfl
  | _, _, _, _, .string, _, _, _, _, _, _, _, _ => rfl
  | _, _, _, _, .bool, _, _, _, _, _, _, _, _ => rfl
  | _, _, _, _, .object _, _, _, _, _, _, _, _, _ => rfl
  | _, _, _, _, .assign he hx, _, _, _, _, hlower, hsees, y, hy => by
      cases hlower with
      | assignLocal hlookup _ hvalue =>
          rw [Progress.noting, List.mem_append, List.mem_singleton, not_or] at hy
          rw [Function.update_of_ne hy.2]
          exact Evaluates.unchanged he hvalue hsees y hy.1
      | assignField hlookup =>
          -- A field of the receiver is not among the variables.
          have hlocal := hsees.after he _ hx
          rw [Site.localTypes, hlookup] at hlocal
          cases hlocal
  | _, _, _, _, .block .nil, _, _, _, _, _, _, _, _ => rfl
  | _, _, _, _, .block (.cons he hes), _, _, _, _, hlower, hsees, y, hy => by
      cases hlower with
      | block hfirst hrest =>
          have hy₁ := fun hmem => hy (hrest.grown.frame.assigned y hmem)
          rw [EvaluatesRest.unchanged hes hrest (hsees.after he) y hy,
            Evaluates.unchanged he hfirst hsees y hy₁]
  | _, _, _, _, @Evaluates.cond _ _ _ _ _ _ _ b _ hpred hbranch, _, _, _, _, hlower, hsees, y,
      hy => by
      cases hlower with
      | cond _ htest hyes hno =>
          obtain ⟨_, _, _, hcode, hassigned⟩ := Lowers.branch b hyes hno
          have hy₁ := fun hmem => hy (hno.grown.frame.assigned y (hyes.grown.frame.assigned y hmem))
          rw [Evaluates.unchanged hbranch hcode (hsees.after hpred) y (mt (hassigned y) hy),
            Evaluates.unchanged hpred htest hsees y hy₁]
  | _, _, _, _, .loopExit hpred, _, _, _, _, hlower, hsees, y, hy => by
      cases hlower with
      | loop _ _ htest hcode =>
          have hy₁ := fun hmem => hy (hcode.grown.frame.assigned y hmem)
          exact Evaluates.unchanged hpred htest hsees y hy₁
  | _, _, _, _, .loopAgain hpred hbody hloop, _, _, _, _, hlower, hsees, y, hy => by
      have hsees₁ := hsees.after hpred
      have hrest := Evaluates.unchanged hloop hlower (hsees₁.after hbody) y hy
      cases hlower with
      | loop _ _ htest hcode =>
          have hy₁ := fun hmem => hy (hcode.grown.frame.assigned y hmem)
          rw [hrest, Evaluates.unchanged hbody hcode hsees₁ y hy,
            Evaluates.unchanged hpred htest hsees y hy₁]
  | _, _, _, _, .letIn hpresent hinit hbody, _, _, _, _, hlower, hsees, y, hy => by
      cases hlower with
      | letIn _ hfirst _ _ hlift =>
          obtain ⟨hy₁, hback⟩ := hlift.not_mem hy
          have hsees₁ := hsees.after hinit
          rw [hlift.unchanged hsees₁ hbody
            (fun hcode => Evaluates.unchanged hbody hcode (hsees₁.bind _ _ _)) hback]
          cases hfirst with
          | default habsent => cases hpresent.symm.trans habsent
          | value _ hcode => exact Evaluates.unchanged hinit hcode hsees y hy₁
  | _, _, _, _, .letDefault _ hbody, _, _, _, _, hlower, hsees, y, hy => by
      cases hlower with
      | letIn _ _ _ _ hlift =>
          exact hlift.unchanged hsees hbody
            (fun hcode => Evaluates.unchanged hbody hcode (hsees.bind _ _ _)) (hlift.not_mem hy).2
  | _, _, _, _, .integers hl hr _, _, _, _, _, hlower, hsees, y, hy => by
      obtain ⟨_, _, _, hleft, hright⟩ := hlower.operands
      have hy₁ := fun hmem => hy (hright.grown.frame.assigned y hmem)
      rw [Evaluates.unchanged hr hright (hsees.after hl) y hy,
        Evaluates.unchanged hl hleft hsees y hy₁]
  | _, _, _, _, .equalInts _ hl hr, _, _, _, _, hlower, hsees, y, hy => by
      obtain ⟨_, _, _, hleft, hright⟩ := hlower.operands
      have hy₁ := fun hmem => hy (hright.grown.frame.assigned y hmem)
      rw [Evaluates.unchanged hr hright (hsees.after hl) y hy,
        Evaluates.unchanged hl hleft hsees y hy₁]
  | _, _, _, _, .equalBools _ hl hr, _, _, _, _, hlower, hsees, y, hy => by
      obtain ⟨_, _, _, hleft, hright⟩ := hlower.operands
      have hy₁ := fun hmem => hy (hright.grown.frame.assigned y hmem)
      rw [Evaluates.unchanged hr hright (hsees.after hl) y hy,
        Evaluates.unchanged hl hleft hsees y hy₁]
  | _, _, _, _, .neg he, _, _, _, _, hlower, hsees, y, hy => by
      cases hlower with
      | neg hcode => exact Evaluates.unchanged he hcode hsees y hy
  | _, _, _, _, .comp he, _, _, _, _, hlower, hsees, y, hy => by
      cases hlower with
      | comp hcode => exact Evaluates.unchanged he hcode hsees y hy
  | _, _, _, _, .isvoid he, _, _, _, _, hlower, hsees, y, hy => by
      cases hlower with
      | isvoid hcode => exact Evaluates.unchanged he hcode hsees y hy

theorem EvaluatesRest.unchanged : ∀ {σ σ' : Valuation} {es : List Expr} {u v : Value},
    EvaluatesRest σ u es v σ' → ∀ {site : Site} {before code : Code} {s s' : Progress},
    LowersRest site before es s code s' → site.Sees σ → ∀ y, y ∉ s'.frame.assigned → σ' y = σ y
  | _, _, _, _, _, .nil, _, _, _, _, _, _, _, _, _ => rfl
  | _, _, _, _, _, .cons he hes, _, _, _, _, _, hlower, hsees, y, hy => by
      cases hlower with
      | cons hfirst hrest =>
          have hy₁ := fun hmem => hy (hrest.grown.frame.assigned y hmem)
          rw [EvaluatesRest.unchanged hes hrest (hsees.after he) y hy,
            Evaluates.unchanged he hfirst hsees y hy₁]

end

end Cool.Lowering
