import Cool.Proofs.Lowering.Selection
import Cool.Proofs.Lowering.WriteBack

/-! The functions lifted from an expression. There is one for each place in it where a function is
lifted. It writes back what its place says, and it is called in the code of the expression or of one
of the others. -/

namespace Cool

/-! ## Code inside code -/

namespace Wat

/-- The code inside an instruction. -/
def Instr.bodies : Instr → List (List Instr)
  | .plain _ operands => [operands]
  | .whenTrue test body => [[test], body]
  | .ifElse _ onTrue onFalse => [onTrue, onFalse]
  | .block _ _ body => [body]
  | .loop _ body => [body]

/-- Code that stands in other code as it is, or inside one of its instructions. -/
inductive Contains (part : List Instr) : List Instr → Prop where
  | here (before after : List Instr) : Contains part (before ++ part ++ after)
  | inside {i instrs body} : i ∈ instrs → body ∈ i.bodies → Contains part body →
      Contains part instrs

namespace Contains

variable {part is js : List Instr}

theorem refl (is : List Instr) : Contains is is := by
  have h : Contains is ([] ++ is ++ []) := .here [] []
  rwa [List.append_nil] at h

theorem left (h : Contains part is) (js : List Instr) : Contains part (is ++ js) := by
  cases h with
  | here before after =>
      rw [List.append_assoc]
      exact .here before (after ++ js)
  | inside hi hbody hpart => exact .inside (List.mem_append_left _ hi) hbody hpart

theorem right (h : Contains part js) (is : List Instr) : Contains part (is ++ js) := by
  cases h with
  | here before after =>
      rw [← List.append_assoc, ← List.append_assoc]
      exact .here (is ++ before) after
  | inside hi hbody hpart => exact .inside (List.mem_append_right _ hi) hbody hpart

theorem trans (h : Contains part is) (h' : Contains is js) : Contains part js := by
  induction h' with
  | here before after => exact (h.right before).left after
  | inside hi hbody _ ih => exact .inside hi hbody ih

end Contains

end Wat

namespace Lowering

open Wat

/-! ## Places -/

mutual

/-- The places in an expression where functions are lifted, each with what is visible there. -/
def liftPoints (vs : Visible) : Expr → List (Visible × LiftPoint)
  | .missing => []
  | .noExpr _ => []
  | .int _ _ => []
  | .string _ _ => []
  | .bool _ _ => []
  | .new _ _ => []
  | .object _ _ => []
  | .block _ body => liftPointsAll vs body
  | .assign _ _ value => liftPoints vs value
  | .dispatch _ receiver _ args => liftPointsAll vs args ++ liftPoints vs receiver
  | .staticDispatch _ receiver _ _ args => liftPointsAll vs args ++ liftPoints vs receiver
  | .cond _ pred onTrue onFalse =>
    liftPoints vs pred ++ liftPoints vs onTrue ++ liftPoints vs onFalse
  | .loop _ pred body => liftPoints vs pred ++ liftPoints vs body
  | .caseOf _ scrutinee branches =>
    liftPoints vs scrutinee ++ (branchPoints vs branches ++ [(vs, .select branches)])
  | .letIn _ x type init body =>
    liftPoints vs init ++ (liftPoints (vs.bind x type) body ++ [(vs, .binding x type body)])
  | .binary _ _ left right => liftPoints vs left ++ liftPoints vs right
  | .unary _ _ operand => liftPoints vs operand
termination_by structural e => e

def liftPointsAll (vs : Visible) : List Expr → List (Visible × LiftPoint)
  | [] => []
  | e :: rest => liftPoints vs e ++ liftPointsAll vs rest
termination_by structural es => es

def branchPoints (vs : Visible) : List Branch → List (Visible × LiftPoint)
  | [] => []
  | .mk _ x type body :: rest =>
    liftPoints (vs.bind x type) body ++ [(vs, .binding x type body)] ++ branchPoints vs rest
termination_by structural bs => bs

end

theorem branchPoints_cons (vs : Visible) (b : Branch) (bs : List Branch) :
    branchPoints vs (b :: bs) =
      liftPoints (vs.bind b.name b.type) b.body ++ [(vs, .binding b.name b.type b.body)] ++
        branchPoints vs bs := by
  cases b
  rfl

theorem branchPoints_eq (vs : Visible) (bs : List Branch) :
    branchPoints vs bs = bs.flatMap fun b =>
      liftPoints (vs.bind b.name b.type) b.body ++ [(vs, .binding b.name b.type b.body)] := by
  induction bs with
  | nil => rfl
  | cons b bs ih => rw [branchPoints_cons, ih, List.flatMap_cons]

theorem branchPoints_perm (vs : Visible) {bs bs' : List Branch} (h : bs.Perm bs') :
    (branchPoints vs bs).Perm (branchPoints vs bs') := by
  rw [branchPoints_eq, branchPoints_eq]
  exact h.flatMap_right _

theorem liftPoints_of_isAbsent {e : Expr} (he : e.isAbsent = true) (vs : Visible) :
    liftPoints vs e = [] := by
  cases e with
  | missing => rfl
  | noExpr => rfl
  | _ => cases he

/-! ## The functions of the places -/

/-- Code that stands in the code of an expression, or in one of the functions lifted from it. -/
def Placed (call instrs : List Instr) (funcs : List Func) : Prop :=
  Contains call instrs ∨ ∃ f ∈ funcs, Contains call f.body

theorem Placed.mono {call is js : List Instr} {funcs funcs' : List Func}
    (h : Placed call is funcs) (his : Contains is js) (hfuncs : funcs ⊆ funcs') :
    Placed call js funcs' := by
  rcases h with hcall | ⟨f, hf, hcall⟩
  · exact .inl (hcall.trans his)
  · exact .inr ⟨f, hfuncs hf, hcall⟩

/-- Between two states a function is finished for each of the given places, and no others. -/
def Lifting (cls : Name) (instrs : List Instr) (ks : List (Visible × LiftPoint))
    (s s' : Progress) : Prop :=
  ∃ new points, s'.funcs = s.funcs ++ new ∧ points.Perm ks ∧
    List.Forall₂ (fun q g => q.2.WritesBack cls q.1 g ∧ Placed (q.2.call q.1 g.name) instrs new)
      points new

namespace Lifting

variable {cls : Name} {is js : List Instr} {ks ks' : List (Visible × LiftPoint)}
variable {s s₁ s₂ : Progress}

theorem refl (cls : Name) (is : List Instr) (s : Progress) : Lifting cls is [] s s :=
  ⟨[], [], (List.append_nil _).symm, .refl _, .nil⟩

theorem perm (h : Lifting cls is ks s s₁) (hks : ks.Perm ks') : Lifting cls is ks' s s₁ := by
  obtain ⟨new, points, hfuncs, hpoints, hnew⟩ := h
  exact ⟨new, points, hfuncs, hpoints.trans hks, hnew⟩

theorem within (h : Lifting cls is ks s s₁) (his : Contains is js) : Lifting cls js ks s s₁ := by
  obtain ⟨new, points, hfuncs, hpoints, hnew⟩ := h
  refine ⟨new, points, hfuncs, hpoints, hnew.imp fun q g => ?_⟩
  rintro ⟨hwrites, hplaced⟩
  exact ⟨hwrites, hplaced.mono his (List.Subset.refl _)⟩

theorem trans (h : Lifting cls is ks s s₁) (h' : Lifting cls is ks' s₁ s₂) :
    Lifting cls is (ks ++ ks') s s₂ := by
  obtain ⟨new, points, hfuncs, hpoints, hnew⟩ := h
  obtain ⟨new', points', hfuncs', hpoints', hnew'⟩ := h'
  refine ⟨new ++ new', points ++ points', by rw [hfuncs', hfuncs, List.append_assoc],
    hpoints.append hpoints', List.rel_append (hnew.imp fun q g => ?_) (hnew'.imp fun q g => ?_)⟩
  · rintro ⟨hwrites, hplaced⟩
    exact ⟨hwrites, hplaced.mono (.refl is) (List.subset_append_left _ _)⟩
  · rintro ⟨hwrites, hplaced⟩
    exact ⟨hwrites, hplaced.mono (.refl is) (List.subset_append_right _ _)⟩

/-- A function around some code is finished, and what was called in that code is called in it. -/
theorem emitting {g : Func} {vs : Visible} {k : LiftPoint} (h : Lifting cls is ks s s₁)
    (hinner : Contains is g.body)
    (hwrites : k.WritesBack cls vs g ∧ k.call vs g.name = js) :
    Lifting cls js (ks ++ [(vs, k)]) s (s₁.emitting g) := by
  obtain ⟨new, points, hfuncs, hpoints, hnew⟩ := h
  have hmem : g ∈ new ++ [g] := List.mem_append_right _ (List.mem_singleton_self g)
  refine ⟨new ++ [g], points ++ [(vs, k)], ?_, hpoints.append_right _,
    List.rel_append (hnew.imp fun q f => ?_) (.cons ⟨hwrites.1, .inl ?_⟩ .nil)⟩
  · rw [Progress.emitting, hfuncs, List.append_assoc]
  · rintro ⟨hwrites', hplaced⟩
    refine ⟨hwrites', .inr ?_⟩
    rcases hplaced with hcode | ⟨f', hf', hcode⟩
    · exact ⟨g, hmem, hcode.trans hinner⟩
    · exact ⟨f', List.mem_append_left _ hf', hcode⟩
  · rw [hwrites.2]
    exact .refl js

end Lifting

/-! ## Lowering -/

section

variable (site : Site) (cls : Name) (code : Code)

theorem contains_coerced : Contains code.instrs (site.coerced cls code) :=
  (Contains.refl _).left _

theorem contains_unboxed : Contains code.instrs (site.unboxed cls code) :=
  (contains_coerced site cls code).left _

theorem contains_equality (t : Name) (l r : Code) :
    Contains l.instrs (site.equality t l r).instrs ∧
      Contains r.instrs (site.equality t l r).instrs := by
  unfold Site.equality
  split
  · exact ⟨(((contains_unboxed site t l).left _).left _).left _,
      (((contains_unboxed site t r).right _).left _).left _⟩
  · split
    · exact ⟨(((contains_coerced site t l).left _).left _).left _,
        (((contains_coerced site t r).right _).left _).left _⟩
    · exact ⟨(((Contains.refl _).left _).left _).left _,
        (((Contains.refl _).right _).left _).left _⟩

end

mutual

/-- Lowering an expression lifts a function for each place in it. -/
theorem Lowers.lifting : ∀ {site : Site} {e : Expr} {s s' : Progress} {code : Code},
    Lowers site e s code s' → Lifting site.current code.instrs (liftPoints site.visible e) s s'
  | _, _, _, _, _, .int _ _ => .refl _ _ _
  | _, _, _, _, _, .string _ => .refl _ _ _
  | _, _, _, _, _, .bool => .refl _ _ _
  | _, _, _, _, _, .object _ => .refl _ _ _
  | _, _, _, _, _, .assignLocal _ _ hvalue => hvalue.lifting.within ((contains_coerced ..).left _)
  | _, _, _, _, _, .assignField _ _ hvalue => hvalue.lifting.within ((contains_coerced ..).left _)
  | _, _, _, _, _, .new => .refl _ _ _
  | _, _, _, _, _, .dispatch _ _ hargs hreceiver =>
      (hargs.lifting.within ((((Contains.refl _).left _).left _).left _)).trans
        (hreceiver.lifting.within ((((contains_coerced ..).right _).left _).left _))
  | _, _, _, _, _, .staticDispatch _ hargs hreceiver =>
      (hargs.lifting.within ((((Contains.refl _).left _).left _).left _)).trans
        (hreceiver.lifting.within ((((contains_coerced ..).right _).left _).left _))
  | _, _, _, _, _, .cond _ hpred htrue hfalse => by
      refine ((hpred.lifting.within ((contains_unboxed ..).left _)).trans
        (htrue.lifting.within (.right ?_ _))).trans (hfalse.lifting.within (.right ?_ _))
      · exact .inside List.mem_cons_self List.mem_cons_self (contains_coerced ..)
      · exact .inside List.mem_cons_self (List.mem_cons_of_mem _ List.mem_cons_self)
          (contains_coerced ..)
  | _, _, _, _, _, .loop _ _ hpred hbody => by
      refine (hpred.lifting.within ?_).trans (hbody.lifting.within ?_)
      · refine .inside List.mem_cons_self List.mem_cons_self ?_
        refine .inside List.mem_cons_self List.mem_cons_self ?_
        exact (((contains_unboxed ..).left _).left _).left _
      · refine .inside List.mem_cons_self List.mem_cons_self ?_
        refine .inside List.mem_cons_self List.mem_cons_self ?_
        exact ((Contains.refl _).right _).left _
  | _, _, _, _, _, .blockNil => .refl _ _ _
  | _, _, _, _, _, .block he hrest =>
      (he.lifting.within hrest.lifting.1).trans hrest.lifting.2
  | _, _, _, _, _, .equality _ hleft hright =>
      (hleft.lifting.within (contains_equality ..).1).trans
        (hright.lifting.within (contains_equality ..).2)
  | _, _, _, _, _, .integer _ hleft hright =>
      (hleft.lifting.within ((((contains_unboxed ..).left _).left _).left _)).trans
        (hright.lifting.within ((((contains_unboxed ..).right _).left _).left _))
  | _, _, _, _, _, .neg hoperand =>
      hoperand.lifting.within ((((contains_unboxed ..).right [_]).left _).left _)
  | _, _, _, _, _, .comp hoperand =>
      hoperand.lifting.within (((contains_unboxed ..).left _).left _)
  | _, _, _, _, _, .isvoid hoperand =>
      hoperand.lifting.within (((Contains.refl _).left _).left _)
  | _, _, _, _, _, .letIn _ hinit _ _ hbody => by
      refine (hinit.lifting.within ((((Contains.refl _).left _).left _).left _)).trans ?_
      exact hbody.lifting.within ((Contains.refl _).right _)
  | _, _, _, _, _, @Lowers.caseOf site _ _ branches _ _ name ps _ tests assigned _ s₁ s₂ hscrutinee
      _ _ hps harms hback => by
      subst hback
      refine (hscrutinee.lifting.within ((((contains_coerced ..).left _).left _).left _)).trans ?_
      have harms' := harms.lifting.perm (branchPoints_perm site.visible (deepestFirst_perm _ _))
      refine (harms'.emitting ?_ (selectFunc_writesBack hps harms)).within
        ((Contains.refl _).right _)
      exact .left (.inside List.mem_cons_self List.mem_cons_self ((Contains.refl _).left _)) _

theorem LowersRest.lifting : ∀ {site : Site} {before code : Code} {es : List Expr}
    {s s' : Progress}, LowersRest site before es s code s' →
    Contains before.instrs code.instrs ∧
      Lifting site.current code.instrs (liftPointsAll site.visible es) s s'
  | _, _, _, _, _, _, .nil => ⟨.refl _, .refl _ _ _⟩
  | _, _, _, _, _, _, .cons he hrest => by
      obtain ⟨hbefore, hlifting⟩ := hrest.lifting
      refine ⟨((Contains.refl _).left _).trans hbefore, .trans (he.lifting.within ?_) hlifting⟩
      exact .trans (.right (.right (.refl _) [_]) _) hbefore

theorem LowersArgs.lifting : ∀ {site : Site} {ps : List Parameter} {es : List Expr}
    {instrs : List Instr} {temps : List String} {s s' : Progress},
    LowersArgs site ps es s instrs temps s' →
    Lifting site.current instrs (liftPointsAll site.visible es) s s'
  | _, _, _, _, _, _, _, .nil => .refl _ _ _
  | _, _, _, _, _, _, _, .cons he hrest =>
      (he.lifting.within ((contains_coerced ..).left _)).trans
        (hrest.lifting.within (.right (.right (.refl _) [_]) _))

theorem LowersInitial.lifting : ∀ {site : Site} {type declared : Name} {init : Expr}
    {instrs : List Instr} {s s' : Progress},
    LowersInitial site type declared init s instrs s' →
    Lifting site.current instrs (liftPoints site.visible init) s s'
  | site, _, _, _, _, _, _, .default hinit _ => by
      rw [liftPoints_of_isAbsent hinit]
      exact .refl _ _ _
  | _, _, _, _, _, _, _, .value _ hcode => hcode.lifting.within (contains_coerced ..)

theorem Lifts.lifting : ∀ {site : Site} {name : String} {x type value : Name} {body : Expr}
    {back : List (Name × ValType)} {s s' : Progress},
    Lifts site name x type value body s back s' → Lifting site.current (callLifted name back)
      (liftPoints (site.visible.bind x type) body ++ [(site.visible, .binding x type body)]) s s'
  | _, _, _, _, _, _, _, _, _, .mk hps hbody hback => by
      have hinner := hbody.lifting
      rw [Site.visible_bind] at hinner
      exact hinner.emitting ((contains_coerced ..).left _)
        (bindingFunc_writesBack hps hbody hback)

theorem LowersArms.lifting : ∀ {site : Site} {name : String} {value : Name} {i : Nat}
    {bs : List Branch} {tests : List Instr} {assigned : List Name} {s s' : Progress},
    LowersArms site name value i bs s tests assigned s' →
    Lifting site.current tests (branchPoints site.visible bs) s s'
  | _, _, _, _, _, _, _, _, _, .nil => .refl _ _ _
  | _, _, _, _, _, _, _, _, _, .cons hb hrest => by
      rw [branchPoints_cons]
      refine (hb.lifting.within ?_).trans (hrest.lifting.within (.right (.refl _) [_]))
      refine .inside List.mem_cons_self (List.mem_cons_of_mem _ List.mem_cons_self) ?_
      exact ((Contains.refl _).right _).left _

end

end Lowering

end Cool
