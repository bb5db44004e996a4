import Cool.Proofs.Lowering.Derivation
import Cool.Proofs.Lowering.Site

/-! The variables that an expression assigns free. They are read off the tree, and lowering notes
those of them that are visible locals and no others. -/

namespace Cool

mutual

/-- Whether a variable is assigned, other than under a binding of the same name. A variable without
a name counts as bound by every case. -/
def Expr.assigns (y : Name) : Expr → Bool
  | .missing => false
  | .noExpr _ => false
  | .int _ _ => false
  | .string _ _ => false
  | .bool _ _ => false
  | .new _ _ => false
  | .object _ _ => false
  | .block _ body => Expr.assignsAny y body
  | .assign _ x value => value.assigns y || decide (x = y)
  | .dispatch _ receiver _ args => Expr.assignsAny y args || receiver.assigns y
  | .staticDispatch _ receiver _ _ args => Expr.assignsAny y args || receiver.assigns y
  | .cond _ pred onTrue onFalse => pred.assigns y || onTrue.assigns y || onFalse.assigns y
  | .loop _ pred body => pred.assigns y || body.assigns y
  | .caseOf _ scrutinee branches => 
    scrutinee.assigns y || (decide (y ≠ .anonymous) && Branch.assignsAny y branches)
  | .letIn _ x _ init body => init.assigns y || (decide (y ≠ x) && body.assigns y)
  | .binary _ _ left right => left.assigns y || right.assigns y
  | .unary _ _ operand => operand.assigns y
termination_by structural e => e

def Expr.assignsAny (y : Name) : List Expr → Bool
  | [] => false
  | e :: rest => e.assigns y || Expr.assignsAny y rest
termination_by structural es => es

def Branch.assignsAny (y : Name) : List Branch → Bool
  | [] => false
  | .mk _ x _ body :: rest => (decide (y ≠ x) && body.assigns y) || Branch.assignsAny y rest
termination_by structural bs => bs

end

/-- Whether the body of a branch assigns a variable that the branch does not bind. -/
def Branch.assigns (y : Name) (b : Branch) : Bool :=
  decide (y ≠ b.name) && b.body.assigns y

theorem Branch.assignsAny_eq (y : Name) (bs : List Branch) :
    Branch.assignsAny y bs = bs.any (Branch.assigns y) := by
  induction bs with
  | nil => rfl
  | cons b bs ih =>
      obtain ⟨span, x, type, body⟩ := b
      rw [Branch.assignsAny, ih]
      rfl

theorem Expr.assigns_of_isAbsent {e : Expr} (he : e.isAbsent = true) (y : Name) :
    e.assigns y = false := by
  cases e with
  | missing => rfl
  | noExpr => rfl
  | _ => cases he

namespace Lowering

open Wat Typing

/-! ## Names of locals -/

theorem mem_names_iff {ps : List Parameter} {L : Env}
    (hps : ∀ {p : Parameter}, p ∈ ps ↔ L p.name = some p.type) {y : Name} :
    y ∈ ps.map (·.name) ↔ (L y).isSome := by
  rw [List.mem_map, Option.isSome_iff_exists]
  constructor
  · rintro ⟨p, hp, rfl⟩
    exact ⟨p.type, hps.mp hp⟩
  · rintro ⟨t, ht⟩
    exact ⟨⟨y, t⟩, hps.mpr ht, rfl⟩

namespace Site

variable {site : Site} {x y type : Name}

theorem mem_names_locals : y ∈ site.locals.map (·.name) ↔ (site.localTypes y).isSome :=
  mem_names_iff mem_locals

theorem mem_names_localsWith :
    y ∈ (site.localsWith x type).map (·.name) ↔ ((passed site.localTypes x type) y).isSome :=
  mem_names_iff mem_localsWith

end Site

theorem names_typedLocals {site : Site} {ps : List Parameter} {qs : List (Name × ValType)}
    (hqs : site.typedLocals ps = .ok qs) : qs.map (·.1) = ps.map (·.name) := by
  obtain ⟨rfl, -⟩ := Site.typedLocals_eq_ok hqs
  rw [List.map_map]
  rfl

theorem mem_names_handedBack {ps : List (Name × ValType)} {assigned : List Name}
    {bound y : Name} :
    y ∈ (handedBack ps assigned bound).map (·.1) ↔
      y ∈ ps.map (·.1) ∧ y ≠ bound ∧ y ∈ assigned := by
  simp only [handedBack, List.mem_map, List.mem_filter, Bool.and_eq_true, decide_eq_true_eq]
  constructor
  · rintro ⟨p, ⟨hp, hbound, hassigned⟩, rfl⟩
    exact ⟨⟨p, hp, rfl⟩, hbound, hassigned⟩
  · rintro ⟨⟨p, hp, rfl⟩, hbound, hassigned⟩
    exact ⟨p, ⟨hp, hbound, hassigned⟩, rfl⟩

theorem any_deepestFirst {α : Type} (depth : α → Nat) (as : List α) (p : α → Bool) :
    (deepestFirst depth as).any p = as.any p := by
  rw [Bool.eq_iff_iff, List.any_eq_true, List.any_eq_true]
  simp only [mem_deepestFirst]

/-! ## What is noted -/

/-- Between two states, the visible locals among given variables are noted and nothing else. -/
def Notes (site : Site) (assigns : Name → Bool) (s s' : Progress) : Prop :=
  ∀ y, y ∈ s'.frame.assigned ↔
    y ∈ s.frame.assigned ∨ (assigns y = true ∧ (site.localTypes y).isSome)

namespace Notes

variable {site : Site} {f g : Name → Bool} {s s₁ s₂ : Progress}

theorem none (h : ∀ y, (site.localTypes y).isSome → f y = false) : Notes site f s s := by
  intro y
  refine (or_iff_left ?_).symm
  rintro ⟨hy, hlocal⟩
  rw [h y hlocal] at hy
  cases hy

theorem noting {xs : List Name} (hframe : s₁.frame = s.frame)
    (h : ∀ y, y ∈ xs ↔ f y = true ∧ (site.localTypes y).isSome) :
    Notes site f s (s₁.noting xs) := by
  intro y
  rw [← h y, ← hframe]
  exact List.mem_append

theorem trans (h : Notes site f s s₁) (h' : Notes site g s₁ s₂) :
    Notes site (fun y => f y || g y) s s₂ := by
  intro y
  rw [h' y, h y, Bool.or_eq_true, or_and_right, or_assoc]

end Notes

/-! ## Lowering -/

mutual

/-- Lowering notes what the expression assigns free, where that is a visible local. -/
theorem Lowers.notes : ∀ {site : Site} {e : Expr} {s s' : Progress} {code : Code},
    Lowers site e s code s' → Notes site (fun y => e.assigns y) s s'
  | _, _, _, _, _, .int _ _ => .none fun _ _ => rfl
  | _, _, _, _, _, .string _ => .none fun _ _ => rfl
  | _, _, _, _, _, .bool => .none fun _ _ => rfl
  | _, _, _, _, _, .object _ => .none fun _ _ => rfl
  | _, _, _, _, _, @Lowers.assignLocal site _ x t _ _ _ _ _ hx _ hvalue => by
      refine hvalue.notes.trans (g := fun y => decide (x = y)) (.noting rfl fun y => ?_)
      have hlocal : site.localTypes x = some t := Site.localTypes_eq_some.mpr hx
      rw [List.mem_singleton, decide_eq_true_eq]
      constructor
      · rintro rfl
        exact ⟨rfl, by rw [hlocal]; rfl⟩
      · exact fun h => h.1.symm
  | _, _, _, _, _, @Lowers.assignField site _ x t _ _ _ _ _ hx _ hvalue => by
      -- A field of the receiver is not a local, so there is nothing to note.
      refine hvalue.notes.trans (g := fun y => decide (x = y)) (.none fun y hy => ?_)
      refine decide_eq_false fun hxy => ?_
      rw [← hxy, Site.localTypes, hx] at hy
      cases hy
  | _, _, _, _, _, .new => .none fun _ _ => rfl
  | _, _, _, _, _, .dispatch _ _ hargs hreceiver => hargs.notes.trans hreceiver.notes
  | _, _, _, _, _, .staticDispatch _ hargs hreceiver => hargs.notes.trans hreceiver.notes
  | _, _, _, _, _, .cond _ hpred htrue hfalse =>
      (hpred.notes.trans htrue.notes).trans hfalse.notes
  | _, _, _, _, _, .loop _ _ hpred hbody => hpred.notes.trans hbody.notes
  | _, _, _, _, _, .blockNil => .none fun _ _ => rfl
  | _, _, _, _, _, .block he hrest => he.notes.trans hrest.notes
  | _, _, _, _, _, .equality _ hleft hright => hleft.notes.trans hright.notes
  | _, _, _, _, _, .integer _ hleft hright => hleft.notes.trans hright.notes
  | _, _, _, _, _, .neg hoperand => hoperand.notes
  | _, _, _, _, _, .comp hoperand => hoperand.notes
  | _, _, _, _, _, .isvoid hoperand => hoperand.notes
  | _, _, _, _, _, @Lowers.letIn _ _ x _ _ body declared _ _ _ _ _ s₁ _ _ hinit _ _ hbody => by
      obtain ⟨hframe, hback⟩ := hbody.notes
      have hlift : Notes _ (fun y => decide (y ≠ x) && body.assigns y)
          (s₁.withTemp (valueType declared)).counted _ := .noting hframe hback
      exact hinit.notes.trans hlift
  | _, _, _, _, _, @Lowers.caseOf site _ _ branches _ _ _ _ back _ _ _ s₁ _ hscrutinee _ _ hps
      harms hback => by
      obtain ⟨hframe, hassigned⟩ := harms.notes
      have hmem : ∀ y, y ∈ back.map (·.1) ↔
          (decide (y ≠ .anonymous) && Branch.assignsAny y branches) = true ∧
            (site.localTypes y).isSome := by
        intro y
        rw [hback, mem_names_handedBack, names_typedLocals hps, Site.mem_names_locals, hassigned,
          any_deepestFirst, Branch.assignsAny_eq, Bool.and_eq_true, decide_eq_true_eq]
        tauto
      have hselect : Notes site (fun y => decide (y ≠ .anonymous) && Branch.assignsAny y branches)
          (s₁.withTemp (valueType .object)).counted _ := .noting hframe hmem
      exact hscrutinee.notes.trans hselect

theorem LowersRest.notes : ∀ {site : Site} {before code : Code} {es : List Expr}
    {s s' : Progress}, LowersRest site before es s code s' →
    Notes site (fun y => Expr.assignsAny y es) s s'
  | _, _, _, _, _, _, .nil => .none fun _ _ => rfl
  | _, _, _, _, _, _, .cons he hrest => he.notes.trans hrest.notes

theorem LowersArgs.notes : ∀ {site : Site} {ps : List Parameter} {es : List Expr}
    {instrs : List Instr} {temps : List String} {s s' : Progress},
    LowersArgs site ps es s instrs temps s' → Notes site (fun y => Expr.assignsAny y es) s s'
  | _, _, _, _, _, _, _, .nil => .none fun _ _ => rfl
  | _, _, _, _, _, _, _, .cons he hrest => he.notes.trans hrest.notes

theorem LowersInitial.notes : ∀ {site : Site} {type declared : Name} {init : Expr}
    {instrs : List Instr} {s s' : Progress},
    LowersInitial site type declared init s instrs s' → Notes site (fun y => init.assigns y) s s'
  | _, _, _, _, _, _, _, .default hinit _ => .none fun y _ => Expr.assigns_of_isAbsent hinit y
  | _, _, _, _, _, _, _, .value _ hcode => hcode.notes

/-- A function around a binding hands back the outer locals that its body assigns free. -/
theorem Lifts.notes : ∀ {site : Site} {name : String} {x type value : Name} {body : Expr}
    {back : List (Name × ValType)} {s s' : Progress},
    Lifts site name x type value body s back s' → s'.frame = s.frame ∧
      ∀ y, y ∈ back.map (·.1) ↔
        (decide (y ≠ x) && body.assigns y) = true ∧ (site.localTypes y).isSome
  | site, _, x, type, _, _, _, _, _, .mk hps hbody hback => by
      refine ⟨rfl, fun y => ?_⟩
      have hassigned := hbody.notes y
      rw [Site.localTypes_bind] at hassigned
      rw [hback, mem_names_handedBack, names_typedLocals hps, Site.mem_names_localsWith, hassigned,
        Bool.and_eq_true, decide_eq_true_eq, Env.bind]
      by_cases hyx : y = x
      · simp [hyx]
      · simp [hyx, passed_of_ne hyx, Progress.inFrame]

theorem LowersArms.notes : ∀ {site : Site} {name : String} {value : Name} {i : Nat}
    {bs : List Branch} {tests : List Instr} {assigned : List Name} {s s' : Progress},
    LowersArms site name value i bs s tests assigned s' → s'.frame = s.frame ∧
      ∀ y, y ∈ assigned ↔ bs.any (Branch.assigns y) = true ∧ (site.localTypes y).isSome
  | _, _, _, _, _, _, _, _, _, .nil => ⟨rfl, fun y => by simp⟩
  | _, _, _, _, _, _, _, _, _, .cons hb hrest => by
      obtain ⟨hframe, hback⟩ := hb.notes
      obtain ⟨hframe', hassigned⟩ := hrest.notes
      refine ⟨hframe'.trans hframe, fun y => ?_⟩
      rw [List.mem_append, hback, hassigned, List.any_cons, Bool.or_eq_true, or_and_right]
      rfl

end

end Lowering

end Cool
