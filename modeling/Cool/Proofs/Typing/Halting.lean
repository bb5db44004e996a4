import Cool.Proofs.Tree.Complete
import Cool.Proofs.Typing.Acceptance

/-! Checking comes to a halt only at an argument that is missing. So it never does in an expression
that is complete, nor in one that is written out. -/

namespace Cool.Typing

variable {α β : Type}

/-- A run that never halts and returns values with a property. -/
def Steady (x : Recording α) (P : α → Prop) : Prop :=
  ∀ j : Journal, (x.run j).2.halted = j.halted ∧ P (x.run j).1

namespace Steady

theorem pure {a : α} {P : α → Prop} (ha : P a) : Steady (pure a) P :=
  fun _ => ⟨rfl, ha⟩

theorem bind {x : Recording α} {f : α → Recording β} {P : α → Prop} {Q : β → Prop}
    (hx : Steady x P) (hf : ∀ a, P a → Steady (f a) Q) : Steady (x >>= f) Q := by
  intro j
  obtain ⟨hhalt, hp⟩ := hx j
  obtain ⟨hhalt', hq⟩ := hf _ hp (x.run j).2
  exact ⟨hhalt'.trans hhalt, hq⟩

theorem weaken {x : Recording α} {P Q : α → Prop} (hx : Steady x P) (hpq : ∀ a, P a → Q a) :
    Steady x Q :=
  fun j => ⟨(hx j).1, hpq _ (hx j).2⟩

theorem report (span : Span) (problem : Problem) :
    Steady (report span problem) (fun _ => True) := by
  intro j
  refine ⟨?_, trivial⟩
  rw [report_run]
  cases hj : j.halted <;> simp [hj]

theorem require (condition : Bool) (span : Span) (problem : Problem) :
    Steady (require condition span problem) (fun _ => True) := by
  unfold Typing.require
  split
  · exact pure trivial
  · exact report span problem

/-- The result of a check that is there keeps its place. -/
theorem typed {m : Mark} {t : Name} {form : Mark → Expr}
    (hform : ∀ m, (form m).span?.isSome = true) :
    Steady (typed m t form) (fun r => r.1.span?.isSome = true) :=
  fun _ => ⟨rfl, hform _⟩

theorem illTyped {m : Mark} {problem : Problem} {form : Mark → Expr}
    (hform : ∀ m, (form m).span?.isSome = true) :
    Steady (illTyped m problem form) (fun r => r.1.span?.isSome = true) :=
  (report m.span problem).bind fun _ _ => typed hform

end Steady

namespace Context

theorem steady_checkArguments (cx : Context) (i : Nat) {params : List Parameter}
    {args : List (Expr × Name)} (hargs : ∀ a ∈ args, a.1.span?.isSome = true) :
    Steady (cx.checkArguments i params args) (fun _ => True) := by
  induction params generalizing i args with
  | nil => exact .pure trivial
  | cons p params ih =>
      cases args with
      | nil => exact .pure trivial
      | cons arg args =>
          obtain ⟨harg, hrest⟩ := List.forall_mem_cons.mp hargs
          obtain ⟨span, hspan⟩ := Option.isSome_iff_exists.mp harg
          rw [checkArguments]
          split
          · exact ih (i + 1) hrest
          · simp only [hspan]
            exact (Steady.report _ _).bind fun _ _ => ih (i + 1) hrest

theorem steady_checkCall (cx : Context) (m : MethodEntry) (owner : Name) (span : Span)
    {args : List (Expr × Name)} (hargs : ∀ a ∈ args, a.1.span?.isSome = true) :
    Steady (cx.checkCall m owner span args) (fun _ => True) := by
  unfold checkCall
  split
  · exact cx.steady_checkArguments 0 hargs
  · exact .report _ _

theorem steady_checkOperands (span : Span) (op : BinaryOp) (left right : Name) :
    Steady (checkOperands span op left right) (fun _ => True) := by
  unfold checkOperands
  split
  · exact .require _ _ _
  · exact (Steady.require _ _ _).bind fun _ _ => .require _ _ _

theorem steady_checkOperand (span : Span) (op : UnaryOp) (t : Name) :
    Steady (checkOperand span op t) (fun _ => True) := by
  unfold checkOperand
  split
  · exact .require _ _ _
  · exact .require _ _ _
  · exact .pure trivial

theorem steady_checkGuard (cx : Context) (span : Span) (name guard : Name) :
    Steady (cx.checkGuard span name guard) (fun _ => True) := by
  unfold checkGuard
  split
  · exact (Steady.report _ _).bind fun _ _ => .require _ _ _
  · exact (Steady.require _ _ _).bind fun _ _ => .require _ _ _

theorem steady_checkLet (cx : Context) (span : Span) (name type : Name) (init : Expr) (t : Name) :
    Steady (cx.checkLet span name type init t) (fun _ => True) := by
  unfold checkLet
  split
  · exact (Steady.require _ _ _).bind fun _ _ => .require _ _ _
  · exact (Steady.report _ _).bind fun _ _ => .require _ _ _

end Context

/-- An absent expression has no parts that could halt the check. -/
theorem steady_check_absent (cx : Context) (scope : Scope Name Name) {e : Expr}
    (he : e.isAbsent = true) : Steady (check cx scope e) (fun _ => True) := by
  cases e
  case missing =>
    rw [check]
    exact .pure trivial
  case noExpr m =>
    rw [check]
    exact fun _ => ⟨rfl, trivial⟩
  all_goals cases he

mutual

theorem steady_checkExpr (cx : Context) (scope : Scope Name Name) : ∀ e : Expr,
    e.isComplete = true ∨ e.isWritten = true →
    Steady (check cx scope e) (fun r => r.1.span?.isSome = true)
  | .missing, he => by simp [Expr.isComplete, Expr.isWritten] at he
  | .noExpr _, _ => by
      rw [check]
      exact .typed fun _ => rfl
  | .block m body, he => by
      rw [Expr.isComplete, Expr.isWritten] at he
      rw [check]
      exact (steady_checkAll cx scope body he).bind fun _ _ => .typed fun _ => rfl
  | .assign m name value, he => by
      rw [Expr.isComplete, Expr.isWritten] at he
      rw [check]
      refine (steady_checkExpr cx scope value he).bind fun r _ => ?_
      dsimp only
      split
      · exact .illTyped fun _ => rfl
      · split
        · exact .illTyped fun _ => rfl
        · split
          · exact .typed fun _ => rfl
          · exact .illTyped fun _ => rfl
  | .dispatch m receiver method args, he => by
      simp only [Expr.isComplete, Expr.isWritten, Bool.and_eq_true] at he
      rw [check]
      refine (steady_checkExpr cx scope receiver (he.imp And.left And.left)).bind fun r _ => ?_
      refine (steady_checkAll cx scope args (he.imp And.right And.right)).bind fun rs hrs => ?_
      dsimp only
      split
      · exact .typed fun _ => rfl
      · split
        · exact .illTyped fun _ => rfl
        · exact (cx.steady_checkCall _ _ _ hrs).bind fun _ _ => .typed fun _ => rfl
  | .staticDispatch m receiver target method args, he => by
      simp only [Expr.isComplete, Expr.isWritten, Bool.and_eq_true] at he
      rw [check]
      refine (steady_checkExpr cx scope receiver (he.imp And.left And.left)).bind fun r _ => ?_
      refine (steady_checkAll cx scope args (he.imp And.right And.right)).bind fun rs hrs => ?_
      dsimp only
      split
      · exact .illTyped fun _ => rfl
      · split
        · refine (Steady.require _ _ _).bind fun _ _ => ?_
          split
          · exact .illTyped fun _ => rfl
          · exact (cx.steady_checkCall _ _ _ hrs).bind fun _ _ => .typed fun _ => rfl
        · exact .illTyped fun _ => rfl
  | .cond m pred onTrue onFalse, he => by
      simp only [Expr.isComplete, Expr.isWritten, Bool.and_eq_true] at he
      have hcond := he.imp And.left And.left
      rw [check]
      exact (steady_checkExpr cx scope pred (hcond.imp And.left And.left)).bind fun _ _ =>
        (Steady.require _ _ _).bind fun _ _ =>
        (steady_checkExpr cx scope onTrue (hcond.imp And.right And.right)).bind fun _ _ =>
        (steady_checkExpr cx scope onFalse (he.imp And.right And.right)).bind fun _ _ =>
        .typed fun _ => rfl
  | .loop m pred body, he => by
      simp only [Expr.isComplete, Expr.isWritten, Bool.and_eq_true] at he
      rw [check]
      exact (steady_checkExpr cx scope pred (he.imp And.left And.left)).bind fun _ _ =>
        (Steady.require _ _ _).bind fun _ _ =>
        (steady_checkExpr cx scope body (he.imp And.right And.right)).bind fun _ _ =>
        .typed fun _ => rfl
  | .caseOf m scrutinee branches, he => by
      simp only [Expr.isComplete, Expr.isWritten, Bool.and_eq_true] at he
      rw [check]
      exact (steady_checkExpr cx scope scrutinee (he.imp (·.1.1) And.left)).bind fun _ _ =>
        (steady_checkBranches cx scope [] none branches (he.imp And.right And.right)).bind
          fun _ _ => .typed fun _ => rfl
  | .letIn m name type init body, he => by
      simp only [Expr.isComplete, Expr.isWritten, Bool.and_eq_true, Bool.or_eq_true] at he
      have hinit : Steady (check cx scope init) (fun _ => True) := by
        rcases he with ⟨habsent | hcomplete, -⟩ | ⟨hwritten, -⟩
        · exact steady_check_absent cx scope habsent
        · exact (steady_checkExpr cx scope init (.inl hcomplete)).weaken fun _ _ => trivial
        · exact (steady_checkExpr cx scope init (.inr hwritten)).weaken fun _ _ => trivial
      rw [check]
      exact hinit.bind fun _ _ => (cx.steady_checkLet _ _ _ _ _).bind fun _ _ =>
        (steady_checkExpr cx _ body (he.imp And.right And.right)).bind fun _ _ =>
        .typed fun _ => rfl
  | .binary m op left right, he => by
      simp only [Expr.isComplete, Expr.isWritten, Bool.and_eq_true] at he
      rw [check]
      exact (steady_checkExpr cx scope left (he.imp And.left (·.1.2))).bind fun _ _ =>
        (steady_checkExpr cx scope right (he.imp And.right And.right)).bind fun _ _ =>
        (Context.steady_checkOperands _ _ _ _).bind fun _ _ => .typed fun _ => rfl
  | .unary m op operand, he => by
      simp only [Expr.isComplete, Expr.isWritten, Bool.and_eq_true] at he
      rw [check]
      exact (steady_checkExpr cx scope operand (he.imp id And.right)).bind fun _ _ =>
        (Context.steady_checkOperand _ _ _).bind fun _ _ => .typed fun _ => rfl
  | .int _ _, _ => by
      rw [check]
      exact .typed fun _ => rfl
  | .string _ _, _ => by
      rw [check]
      exact .typed fun _ => rfl
  | .bool _ _, _ => by
      rw [check]
      exact .typed fun _ => rfl
  | .new _ _, _ => by
      rw [check]
      split
      · exact .typed fun _ => rfl
      · exact .illTyped fun _ => rfl
  | .object _ _, _ => by
      rw [check]
      split
      · exact .typed fun _ => rfl
      · exact .illTyped fun _ => rfl
termination_by structural e => e

theorem steady_checkAll (cx : Context) (scope : Scope Name Name) : ∀ es : List Expr,
    Expr.allComplete es = true ∨ Expr.allWritten es = true →
    Steady (checkAll cx scope es) (fun rs => ∀ r ∈ rs, r.1.span?.isSome = true)
  | [], _ => by
      rw [checkAll]
      exact .pure (by simp)
  | e :: es, he => by
      simp only [Expr.allComplete, Expr.allWritten, Bool.and_eq_true] at he
      rw [checkAll]
      exact (steady_checkExpr cx scope e (he.imp And.left And.left)).bind fun _ hr =>
        (steady_checkAll cx scope es (he.imp And.right And.right)).bind fun _ hrs =>
        .pure (List.forall_mem_cons.mpr ⟨hr, hrs⟩)
termination_by structural es => es

theorem steady_checkBranches (cx : Context) (scope : Scope Name Name) (guards : List Name)
    (before : Option Name) : ∀ bs : List Branch,
    Branch.allComplete bs = true ∨ Branch.allWritten bs = true →
    Steady (checkBranches cx scope guards before bs) (fun _ => True)
  | [], _ => by
      rw [checkBranches]
      exact .pure trivial
  | .mk span name guard body :: bs, he => by
      simp only [Branch.allComplete, Branch.allWritten, Bool.and_eq_true] at he
      have hrest := he.imp And.right And.right
      rw [checkBranches]
      split
      · exact (Steady.report _ _).bind fun _ _ =>
          (steady_checkBranches cx scope _ _ bs hrest).bind fun _ _ => .pure trivial
      · exact (cx.steady_checkGuard _ _ _).bind fun _ _ =>
          (steady_checkExpr cx _ body (he.imp And.left And.left)).bind fun _ _ =>
          (steady_checkBranches cx scope _ _ bs hrest).bind fun _ _ => .pure trivial
termination_by structural bs => bs

end

theorem steady_check (cx : Context) (scope : Scope Name Name) (e : Expr)
    (he : e.isComplete = true) :
    Steady (check cx scope e) (fun r => r.1.span?.isSome = true) :=
  steady_checkExpr cx scope e (.inl he)

/-! ## Programs -/

theorem Steady.mapM {f : α → Recording β} {as : List α}
    (hf : ∀ a ∈ as, Steady (f a) (fun _ => True)) : Steady (as.mapM f) (fun _ => True) := by
  induction as with
  | nil =>
      rw [List.mapM_nil]
      exact .pure trivial
  | cons a as ih =>
      obtain ⟨ha, hrest⟩ := List.forall_mem_cons.mp hf
      rw [List.mapM_cons]
      exact ha.bind fun _ _ => (ih hrest).bind fun _ _ => .pure trivial

theorem steady_checkFeature (cx : Context) (scope : Scope Name Name) {f : Feature}
    (hf : f.isWritten = true) : Steady (checkFeature cx scope f) (fun _ => True) := by
  cases f with
  | method m =>
      rw [checkFeature, checkMethod]
      exact ((steady_checkExpr cx _ m.body (.inr hf)).bind fun _ _ =>
        (Steady.require _ _ _).bind fun _ _ => .pure trivial).bind fun _ (_ : True) => .pure trivial
  | attr a =>
      rw [checkFeature, checkAttribute]
      exact ((steady_checkExpr cx _ a.init (.inr hf)).bind fun _ _ =>
        (Steady.require _ _ _).bind fun _ _ => .pure trivial).bind fun _ (_ : True) => .pure trivial

theorem steady_checkClass (ms : Members) {c : ClassDecl}
    (hc : ∀ f ∈ c.features, f.isWritten = true) : Steady (checkClass ms c) (fun _ => True) := by
  unfold checkClass
  split
  · exact .pure trivial
  · exact (Steady.mapM fun f hf => steady_checkFeature _ _ (hc f hf)).bind fun _ _ => .pure trivial

/-- The check of a program that is written out runs to its end. -/
theorem checkProgram_not_halted (ms : Members) {p : Program}
    (hp : ∀ c ∈ p.classes, ∀ f ∈ c.features, f.isWritten = true) :
    (checkProgram ms p).halted = false :=
  (Steady.mapM fun c hc => steady_checkClass ms (hp c hc) : Steady _ _) {} |>.1

end Cool.Typing
