import Cool.Proofs.Lowering.LiftPoints
import Cool.Proofs.Lowering.Uses

/-! Where casts come from. Code casts the value on the stack only right after the code of an
expression that is asked at a class its value does not conform to. -/

namespace Cool

/-! ## Casts in code -/

namespace Wat

mutual

/-- The casts of the value on the stack that an instruction makes after some code. A cast whose
operand is written inside is none of them. -/
def Instr.stackCasts (before : List Instr) : Instr → List (List Instr × ValType)
  | .plain (.refCast t) [] => [(before, t)]
  | .plain _ operands => stackCasts [] operands
  | .whenTrue test body => test.stackCasts [] ++ stackCasts [] body
  | .ifElse _ onTrue onFalse => stackCasts [] onTrue ++ stackCasts [] onFalse
  | .block _ _ body => stackCasts [] body
  | .loop _ body => stackCasts [] body
termination_by structural i => i

/-- The casts of the value on the stack in code, each with the code that stands before it. -/
def stackCasts (before : List Instr) : List Instr → List (List Instr × ValType)
  | [] => []
  | i :: rest => i.stackCasts before ++ stackCasts (before ++ [i]) rest
termination_by structural is => is

end

/-- An instruction that is no such cast has those inside of it. -/
theorem Instr.stackCasts_of_ne {i : Instr} (hi : ∀ t, i ≠ .plain (.refCast t) [])
    (before : List Instr) : i.stackCasts before = i.bodies.flatMap (Wat.stackCasts []) := by
  cases i with
  | plain op operands =>
      rw [Instr.stackCasts]
      · simp [Instr.bodies]
      · rintro t rfl rfl
        exact hi t rfl
  | _ => simp [Instr.stackCasts, Instr.bodies, Wat.stackCasts]

theorem stackCasts_append (before is js : List Instr) :
    stackCasts before (is ++ js) = stackCasts before is ++ stackCasts (before ++ is) js := by
  induction is generalizing before with
  | nil => simp [stackCasts]
  | cons i is ih => simp [stackCasts, ih]

theorem Instr.exists_stackCast {i : Instr} {a b : List Instr} {q : List Instr × ValType}
    (hq : q ∈ i.stackCasts (a ++ b)) :
    ∃ before, (before, q.2) ∈ i.stackCasts b ∧ before <:+ q.1 := by
  by_cases hi : ∃ t, i = .plain (.refCast t) []
  · obtain ⟨t, rfl⟩ := hi
    rw [List.mem_singleton.mp hq]
    exact ⟨b, List.mem_singleton_self _, List.suffix_append a b⟩
  · rw [not_exists] at hi
    rw [stackCasts_of_ne hi] at hq ⊢
    exact ⟨q.1, hq, List.suffix_rfl⟩

/-- Code that stands further on makes the same casts, after more code. -/
theorem exists_stackCast {a b is : List Instr} {q : List Instr × ValType}
    (hq : q ∈ stackCasts (a ++ b) is) :
    ∃ before, (before, q.2) ∈ stackCasts b is ∧ before <:+ q.1 := by
  induction is generalizing b with
  | nil => cases hq
  | cons i is ih =>
      rw [stackCasts, List.append_assoc] at hq
      rw [stackCasts]
      rcases List.mem_append.mp hq with hq | hq
      · obtain ⟨before, hmem, hsuffix⟩ := Instr.exists_stackCast hq
        exact ⟨before, List.mem_append_left _ hmem, hsuffix⟩
      · obtain ⟨before, hmem, hsuffix⟩ := ih hq
        exact ⟨before, List.mem_append_right _ hmem, hsuffix⟩

/-- Code that casts the value on the stack only right after code that is allowed. -/
def CastsWhere (P : List Instr → ValType → Prop) (is : List Instr) : Prop :=
  ∀ q ∈ stackCasts [] is, ∃ value, P value q.2 ∧ value <:+ q.1

namespace CastsWhere

variable {P : List Instr → ValType → Prop} {is js : List Instr} {i : Instr}

theorem of_none (h : stackCasts [] is = []) : CastsWhere P is := by
  rw [CastsWhere, h]
  exact nofun

theorem append (his : CastsWhere P is) (hjs : CastsWhere P js) : CastsWhere P (is ++ js) := by
  intro q hq
  rw [stackCasts_append, List.nil_append] at hq
  rcases List.mem_append.mp hq with hq | hq
  · exact his q hq
  · rw [← List.append_nil is] at hq
    obtain ⟨before, hmem, hsuffix⟩ := exists_stackCast hq
    obtain ⟨value, hvalue, hsuffix'⟩ := hjs _ hmem
    exact ⟨value, hvalue, hsuffix'.trans hsuffix⟩

theorem cons (hi : CastsWhere P [i]) (his : CastsWhere P is) : CastsWhere P (i :: is) :=
  hi.append his

theorem cast {t : ValType} (his : CastsWhere P is) (ht : P is t) :
    CastsWhere P (is ++ [.plain (.refCast t) []]) := by
  intro q hq
  rw [stackCasts_append, List.nil_append] at hq
  rcases List.mem_append.mp hq with hq | hq
  · exact his q hq
  · rw [List.mem_singleton.mp hq]
    exact ⟨is, ht, List.suffix_rfl⟩

theorem inside (hi : ∀ t, i ≠ .plain (.refCast t) [])
    (hbodies : ∀ body ∈ i.bodies, CastsWhere P body) : CastsWhere P [i] := by
  intro q hq
  rw [stackCasts, stackCasts, List.append_nil, Instr.stackCasts_of_ne hi] at hq
  obtain ⟨body, hbody, hq⟩ := List.mem_flatMap.mp hq
  exact hbodies body hbody q hq

theorem whenTrue {test : Instr} (htest : CastsWhere P [test]) (his : CastsWhere P is) :
    CastsWhere P [.whenTrue test is] :=
  inside nofun (List.forall_mem_cons.mpr ⟨htest, List.forall_mem_singleton.mpr his⟩)

theorem ifElse (his : CastsWhere P is) (hjs : CastsWhere P js) (t : ValType) :
    CastsWhere P [.ifElse t is js] :=
  inside nofun (List.forall_mem_cons.mpr ⟨his, List.forall_mem_singleton.mpr hjs⟩)

theorem block (his : CastsWhere P is) (label : String) (results : List ValType) :
    CastsWhere P [.block label results is] :=
  inside nofun (List.forall_mem_singleton.mpr his)

theorem loop (his : CastsWhere P is) (label : String) : CastsWhere P [.loop label is] :=
  inside nofun (List.forall_mem_singleton.mpr his)

theorem of_forall (h : ∀ i ∈ is, CastsWhere P [i]) : CastsWhere P is := by
  induction is with
  | nil => exact .of_none rfl
  | cons i is ih =>
      obtain ⟨hi, his⟩ := List.forall_mem_cons.mp h
      exact hi.cons (ih his)

theorem getLocals {α : Type} (as : List α) (x : α → String) :
    CastsWhere P (as.map fun a => getLocal (x a)) :=
  of_forall (List.forall_mem_map.mpr fun _ _ => .of_none rfl)

end CastsWhere

end Wat

namespace Lowering

open Wat

/-! ## Casts of uses -/

/-- A use whose value has the given code and is cast to a type. -/
def Use.Casts (u : Use) (value : List Instr) (t : ValType) : Prop :=
  ∃ s code s' want, lower u.site u.expr s = .ok (code, s') ∧ u.want = some want ∧
    value = code.instrs ∧ t = valueType want ∧
    u.site.coerce code.cls want = [.plain (.refCast t) []]

/-- Code that casts the value on the stack only where one of the given uses does. -/
abbrev CastsBy (Q : Use → Prop) : List Instr → Prop :=
  CastsWhere fun value t => ∃ u, Q u ∧ u.Casts value t

def Progress.CastsBy (Q : Use → Prop) (s : Progress) : Prop :=
  ∀ f ∈ s.funcs, Lowering.CastsBy Q f.body

section

variable {Q : Use → Prop} {site : Site} {s s' : Progress}

theorem Progress.CastsBy.emittingAll (hs : s.CastsBy Q) {fs : List Func}
    (hfs : ∀ f ∈ fs, Lowering.CastsBy Q f.body) : (s.emittingAll fs).CastsBy Q :=
  List.forall_mem_append.mpr ⟨hs, hfs⟩

theorem Progress.CastsBy.emitting (hs : s.CastsBy Q) {f : Func}
    (hf : Lowering.CastsBy Q f.body) : (s.emitting f).CastsBy Q :=
  hs.emittingAll (List.forall_mem_singleton.mpr hf)

theorem castsBy_coerced {e : Expr} {want : Name} {code : Code} (hu : Q ⟨site, e, some want⟩)
    (hlower : Lowers site e s code s') (hcode : CastsBy Q code.instrs) :
    CastsBy Q (site.coerced want code) := by
  unfold Site.coerced
  cases hconforms : site.members.hierarchy.conforms code.cls want site.current with
  | true => rwa [Site.coerce, if_pos hconforms, List.append_nil]
  | false =>
      have hcast : site.coerce code.cls want = [.plain (.refCast (valueType want)) []] := by
        rw [Site.coerce, if_neg (Bool.eq_false_iff.mp hconforms)]
      rw [hcast]
      have hrun := lower_eq_ok_iff.mpr hlower
      exact hcode.cast ⟨_, hu, s, code, s', want, hrun, rfl, rfl, rfl, hcast⟩

theorem castsBy_unboxed {e : Expr} {c : Name} {code : Code} (hu : Q ⟨site, e, some c⟩)
    (hlower : Lowers site e s code s') (hcode : CastsBy Q code.instrs) :
    CastsBy Q (site.unboxed c code) :=
  (castsBy_coerced hu hlower hcode).append (.of_none rfl)

theorem castsBy_callLifted (name : String) (back : List (Name × ValType)) :
    CastsBy Q (callLifted name back) :=
  .cons (.of_none rfl) (.of_forall (List.forall_mem_map.mpr fun _ _ => .of_none rfl))

theorem castsBy_liftedArgs {x type : Name} {bound : Instr} (hbound : CastsBy Q [bound]) :
    CastsBy Q (site.liftedArgs x type bound) := by
  refine .cons (.of_none rfl) (.of_forall (List.forall_mem_map.mpr fun p _ => ?_))
  split
  · exact hbound
  · exact .of_none rfl

theorem castsBy_liftedFunc {name : String} {params locals : List (String × ValType)}
    {value : ValType} {back : List (Name × ValType)} {body : List Instr}
    (hbody : CastsBy Q body) : CastsBy Q (liftedFunc name params value back locals body).body :=
  hbody.append (.getLocals back fun q => localId q.1)

theorem castsBy_equality {left right : Expr} {t : Name} {l r : Code} {s₁ s₂ s₃ : Progress}
    (hl : Q ⟨site, left, operandClass? .eq t⟩) (hr : Q ⟨site, right, operandClass? .eq t⟩)
    (hleft : Lowers site left s l s₁) (hright : Lowers site right s₂ r s₃)
    (hlcode : CastsBy Q l.instrs) (hrcode : CastsBy Q r.instrs) :
    CastsBy Q (site.equality t l r).instrs := by
  have hprim : t.isPrimitive = true → operandClass? .eq t = some t := fun ht => if_pos ht
  unfold Site.equality
  split
  · rename_i ht
    rw [hprim (by rcases ht with rfl | rfl <;> rfl)] at hl hr
    exact (((castsBy_unboxed hl hleft hlcode).append (castsBy_unboxed hr hright hrcode)).append
      (.of_none rfl)).append (.of_none rfl)
  · split
    · rename_i ht
      rw [hprim (ht ▸ rfl)] at hl hr
      exact (((castsBy_coerced hl hleft hlcode).append (castsBy_coerced hr hright hrcode)).append
        (.of_none rfl)).append (.of_none rfl)
    · exact ((hlcode.append hrcode).append (.of_none rfl)).append (.of_none rfl)

theorem castsBy_integerCode {op : BinaryOp} {instr : Op} (hop : integerOp? op = some instr)
    {left right : Expr} {l r : Code} {s₁ s₂ s₃ : Progress} (hl : Q ⟨site, left, some .int⟩)
    (hr : Q ⟨site, right, some .int⟩) (hleft : Lowers site left s l s₁)
    (hright : Lowers site right s₂ r s₃) (hlcode : CastsBy Q l.instrs)
    (hrcode : CastsBy Q r.instrs) : CastsBy Q (site.integerCode op instr l r).instrs := by
  have hinstr : CastsBy Q [.plain instr []] := by
    cases op <;> cases hop <;> exact .of_none rfl
  exact (((castsBy_unboxed hl hleft hlcode).append (castsBy_unboxed hr hright hrcode)).append
    hinstr).append (.of_none rfl)

end

/-! ## Casts of expressions -/

/-- Uses among which there are those of all parts. -/
def PartsClosed (Q : Use → Prop) : Prop :=
  ∀ ⦃u v : Use⦄, Q u → v ∈ u.site.uses u.expr → Q v

mutual

/-- The code of an expression casts where the uses in it do, and so do the functions lifted from
it. -/
theorem Lowers.castsBy {Q : Use → Prop} (hQ : PartsClosed Q) : ∀ {site : Site} {e : Expr}
    {want : Option Name} {s s' : Progress} {code : Code}, Lowers site e s code s' →
    Q ⟨site, e, want⟩ → s.CastsBy Q → CastsBy Q code.instrs ∧ s'.CastsBy Q
  | _, _, _, _, _, _, .int _ _, _, hs => ⟨.of_none rfl, hs⟩
  | _, _, _, _, _, _, .string _, _, hs => ⟨.of_none rfl, hs⟩
  | _, _, _, _, _, _, .bool, _, hs => ⟨.of_none rfl, hs⟩
  | _, _, _, _, _, _, .object hcode, _, hs => by
      cases hcode <;> exact ⟨.of_none rfl, hs⟩
  | _, _, _, _, _, _, .assignLocal hx hwant hvalue, hu, hs => by
      have hpart := hQ hu (by
        rw [Site.uses, Site.stored_of_local hx hwant]
        exact List.mem_singleton_self _)
      obtain ⟨hcode, hs⟩ := hvalue.castsBy hQ hpart hs
      exact ⟨(castsBy_coerced hpart hvalue hcode).append (.of_none rfl), hs⟩
  | _, _, _, _, _, _, .assignField hx hwant hvalue, hu, hs => by
      have hpart := hQ hu (by
        rw [Site.uses, Site.stored_of_field hx hwant]
        exact List.mem_singleton_self _)
      obtain ⟨hcode, hs⟩ := hvalue.castsBy hQ hpart hs
      exact ⟨(castsBy_coerced hpart hvalue hcode).append (.of_none rfl), hs⟩
  | site, _, _, _, _, _, @Lowers.new _ _ type _, _, hs => by
      refine ⟨?_, hs⟩
      unfold Site.allocate
      split <;> exact .of_none rfl
  | _, _, _, _, _, _, .dispatch ht hentry hargs hreceiver, hu, hs => by
      have hcall := fun v hv => hQ hu (v := v) (by
        rw [Site.uses, type_of_typeOf ht, hentry]
        exact hv)
      obtain ⟨hfirst, hrest⟩ := List.forall_mem_cons.mp hcall
      obtain ⟨hbefore, hs⟩ := hargs.castsBy hQ hrest hs
      obtain ⟨hcode, hs⟩ := hreceiver.castsBy hQ hfirst hs
      refine ⟨?_, hs⟩
      exact ((hbefore.append (castsBy_coerced hfirst hreceiver hcode)).append
        (.getLocals _ id)).append (.of_none rfl)
  | _, _, _, _, _, _, .staticDispatch hentry hargs hreceiver, hu, hs => by
      have hcall := fun v hv => hQ hu (v := v) (by
        rw [Site.uses, hentry]
        exact hv)
      obtain ⟨hfirst, hrest⟩ := List.forall_mem_cons.mp hcall
      obtain ⟨hbefore, hs⟩ := hargs.castsBy hQ hrest hs
      obtain ⟨hcode, hs⟩ := hreceiver.castsBy hQ hfirst hs
      refine ⟨?_, hs⟩
      exact ((hbefore.append (castsBy_coerced hfirst hreceiver hcode)).append
        (.getLocals _ id)).append (.of_none rfl)
  | _, _, _, _, _, _, .cond hwant hpred htrue hfalse, hu, hs => by
      have hparts := fun v hv => hQ hu (v := v) hv
      rw [Site.uses, hwant] at hparts
      simp only [Except.toOption, List.forall_mem_cons] at hparts
      obtain ⟨hpart₀, hpart₁, hpart₂, -⟩ := hparts
      obtain ⟨htest, hs⟩ := hpred.castsBy hQ hpart₀ hs
      obtain ⟨hyes, hs⟩ := htrue.castsBy hQ hpart₁ hs
      obtain ⟨hno, hs⟩ := hfalse.castsBy hQ hpart₂ hs
      refine ⟨(castsBy_unboxed hpart₀ hpred htest).append (.ifElse ?_ ?_ _), hs⟩
      · exact castsBy_coerced hpart₁ htrue hyes
      · exact castsBy_coerced hpart₂ hfalse hno
  | _, _, _, _, _, _, .loop _ _ hpred hbody, hu, hs => by
      have hpart₀ := hQ hu List.mem_cons_self
      have hpart₁ := hQ hu (List.mem_cons_of_mem _ List.mem_cons_self)
      obtain ⟨htest, hs⟩ := hpred.castsBy hQ hpart₀ hs
      obtain ⟨hcode, hs⟩ := hbody.castsBy hQ hpart₁ hs
      refine ⟨.cons (.block (.loop ?_ _) _ _) (.of_none rfl), hs⟩
      exact (((castsBy_unboxed hpart₀ hpred htest).append (.of_none rfl)).append hcode).append
        (.of_none rfl)
  | _, _, _, _, _, _, .blockNil, _, hs => ⟨.of_none rfl, hs⟩
  | _, _, _, _, _, _, .block he hrest, hu, hs => by
      have hparts := fun e hmem => hQ hu (List.mem_map_of_mem (a := e) hmem)
      obtain ⟨hfirst, hothers⟩ := List.forall_mem_cons.mp hparts
      obtain ⟨hcode, hs⟩ := he.castsBy hQ hfirst hs
      exact hrest.castsBy hQ hothers hcode hs
  | _, _, _, _, _, _, .equality ht hleft hright, hu, hs => by
      have hpart₁ := hQ hu List.mem_cons_self
      have hpart₂ := hQ hu (List.mem_cons_of_mem _ List.mem_cons_self)
      rw [type_of_typeOf ht] at hpart₁ hpart₂
      obtain ⟨hl, hs⟩ := hleft.castsBy hQ hpart₁ hs
      obtain ⟨hr, hs⟩ := hright.castsBy hQ hpart₂ hs
      exact ⟨castsBy_equality hpart₁ hpart₂ hleft hright hl hr, hs⟩
  | _, _, _, _, _, _, .integer hop hleft hright, hu, hs => by
      have hclass := operandClass?_of_integerOp? hop
      have hpart₁ := hQ hu List.mem_cons_self
      have hpart₂ := hQ hu (List.mem_cons_of_mem _ List.mem_cons_self)
      rw [hclass] at hpart₁ hpart₂
      obtain ⟨hl, hs⟩ := hleft.castsBy hQ hpart₁ hs
      obtain ⟨hr, hs⟩ := hright.castsBy hQ hpart₂ hs
      exact ⟨castsBy_integerCode hop hpart₁ hpart₂ hleft hright hl hr, hs⟩
  | _, _, _, _, _, _, .neg hoperand, hu, hs => by
      have hpart := hQ hu (List.mem_singleton_self _)
      obtain ⟨hcode, hs⟩ := hoperand.castsBy hQ hpart hs
      refine ⟨.cons (.of_none rfl) ?_, hs⟩
      exact ((castsBy_unboxed hpart hoperand hcode).append (.of_none rfl)).append (.of_none rfl)
  | _, _, _, _, _, _, .comp hoperand, hu, hs => by
      have hpart := hQ hu (List.mem_singleton_self _)
      obtain ⟨hcode, hs⟩ := hoperand.castsBy hQ hpart hs
      refine ⟨?_, hs⟩
      exact ((castsBy_unboxed hpart hoperand hcode).append (.of_none rfl)).append (.of_none rfl)
  | _, _, _, _, _, _, .isvoid hoperand, hu, hs => by
      have hpart := hQ hu (List.mem_singleton_self _)
      obtain ⟨hcode, hs⟩ := hoperand.castsBy hQ hpart hs
      exact ⟨(hcode.append (.of_none rfl)).append (.of_none rfl), hs⟩
  | _, _, _, _, _, _, .letIn hdeclared hinit hvalue _ hbody, hu, hs => by
      have hparts := fun v hv => hQ hu (v := v) hv
      rw [Site.uses, hdeclared, hvalue] at hparts
      obtain ⟨hfirst, hlast⟩ := List.forall_mem_append.mp hparts
      obtain ⟨hcode, hs⟩ := hinit.castsBy hQ (fun hpresent => hfirst _ (by
        rw [hpresent]
        exact List.mem_singleton_self _)) hs
      refine ⟨?_, hbody.castsBy hQ (hlast _ (List.mem_singleton_self _)) hs⟩
      exact ((hcode.append (.of_none rfl)).append (castsBy_liftedArgs (.of_none rfl))).append
        (castsBy_callLifted _ _)
  | _, _, _, _, _, _, .caseOf hscrutinee hvalue _ _ harms _, hu, hs => by
      have hparts := fun v hv => hQ hu (v := v) hv
      rw [Site.uses, hvalue] at hparts
      obtain ⟨hfirst, hbranches⟩ := List.forall_mem_cons.mp hparts
      obtain ⟨hcode, hs⟩ := hscrutinee.castsBy hQ hfirst hs
      obtain ⟨htests, hs⟩ := harms.castsBy hQ (fun b hb =>
        hbranches _ (List.mem_map_of_mem (mem_deepestFirst.mp hb))) hs
      refine ⟨?_, hs.emitting (castsBy_liftedFunc ((htests.append (.of_none rfl)).block _ _))⟩
      exact (((castsBy_coerced hfirst hscrutinee hcode).append (.of_none rfl)).append
        (.getLocals _ fun p : Name × ValType => localId p.1)).append (castsBy_callLifted _ _)

theorem LowersRest.castsBy {Q : Use → Prop} (hQ : PartsClosed Q) : ∀ {site : Site}
    {before code : Code} {es : List Expr} {s s' : Progress}, LowersRest site before es s code s' →
    (∀ e ∈ es, Q ⟨site, e, none⟩) → CastsBy Q before.instrs → s.CastsBy Q →
    CastsBy Q code.instrs ∧ s'.CastsBy Q
  | _, _, _, _, _, _, .nil, _, hbefore, hs => ⟨hbefore, hs⟩
  | _, _, _, _, _, _, .cons he hrest, hes, hbefore, hs => by
      obtain ⟨hfirst, hothers⟩ := List.forall_mem_cons.mp hes
      obtain ⟨hcode, hs⟩ := he.castsBy hQ hfirst hs
      exact hrest.castsBy hQ hothers (hbefore.append (.cons (.of_none rfl) hcode)) hs

theorem LowersArgs.castsBy {Q : Use → Prop} (hQ : PartsClosed Q) : ∀ {site : Site}
    {ps : List Parameter} {es : List Expr} {instrs : List Instr} {temps : List String}
    {s s' : Progress}, LowersArgs site ps es s instrs temps s' →
    (∀ v ∈ List.zipWith (fun e p => (⟨site, e, some p.type⟩ : Use)) es ps, Q v) →
    s.CastsBy Q → CastsBy Q instrs ∧ s'.CastsBy Q
  | _, _, _, _, _, _, _, .nil, _, hs => ⟨.of_none rfl, hs⟩
  | _, _, _, _, _, _, _, .cons he hrest, hes, hs => by
      obtain ⟨hfirst, hothers⟩ := List.forall_mem_cons.mp hes
      obtain ⟨hcode, hs⟩ := he.castsBy hQ hfirst hs
      obtain ⟨hinstrs, hs⟩ := hrest.castsBy hQ hothers hs
      exact ⟨(castsBy_coerced hfirst he hcode).append (.cons (.of_none rfl) hinstrs), hs⟩

theorem LowersInitial.castsBy {Q : Use → Prop} (hQ : PartsClosed Q) : ∀ {site : Site}
    {type declared : Name} {init : Expr} {instrs : List Instr} {s s' : Progress},
    LowersInitial site type declared init s instrs s' →
    (init.isAbsent = false → Q ⟨site, init, some declared⟩) → s.CastsBy Q →
    CastsBy Q instrs ∧ s'.CastsBy Q
  | _, _, _, _, _, _, _, .default _ hi, _, hs => by
      cases hi <;> exact ⟨.of_none rfl, hs⟩
  | _, _, _, _, _, _, _, .value hinit hlower, hu, hs => by
      obtain ⟨hcode, hs⟩ := hlower.castsBy hQ (hu hinit) hs
      exact ⟨castsBy_coerced (hu hinit) hlower hcode, hs⟩

theorem Lifts.castsBy {Q : Use → Prop} (hQ : PartsClosed Q) : ∀ {site : Site} {name : String}
    {x type value : Name} {body : Expr} {back : List (Name × ValType)} {s s' : Progress},
    Lifts site name x type value body s back s' →
    Q ⟨site.bind x type, body, some value⟩ → s.CastsBy Q → s'.CastsBy Q
  | _, _, _, _, _, _, _, _, _, .mk _ hbody _, hu, hs => by
      obtain ⟨hcode, hs⟩ := hbody.castsBy hQ hu hs
      exact hs.emitting (castsBy_liftedFunc (castsBy_coerced hu hbody hcode))

theorem LowersArms.castsBy {Q : Use → Prop} (hQ : PartsClosed Q) : ∀ {site : Site} {name : String}
    {value : Name} {i : Nat} {bs : List Branch} {tests : List Instr} {assigned : List Name}
    {s s' : Progress}, LowersArms site name value i bs s tests assigned s' →
    (∀ b ∈ bs, Q ⟨site.bind b.name b.type, b.body, some value⟩) → s.CastsBy Q →
    CastsBy Q tests ∧ s'.CastsBy Q
  | _, _, _, _, _, _, _, _, _, .nil, _, hs => ⟨.of_none rfl, hs⟩
  | _, _, _, _, _, _, _, _, _, .cons hb hrest, hbs, hs => by
      obtain ⟨hfirst, hothers⟩ := List.forall_mem_cons.mp hbs
      obtain ⟨htests, hs⟩ := hrest.castsBy hQ hothers (hb.castsBy hQ hfirst hs)
      refine ⟨.cons (.whenTrue (.of_none rfl) ?_) htests, hs⟩
      exact ((castsBy_liftedArgs (.of_none rfl)).append (castsBy_callLifted _ _)).append
        (.of_none rfl)

end

/-! ## Casts of classes -/

section

variable {Q : Use → Prop}

theorem castsBy_default {site : Site} {t : Name} {i : Instr} (hi : site.Defaults t i) :
    CastsBy Q [i] := by
  cases hi <;> exact .of_none rfl

theorem Allocates.castsBy {site : Site} {c : Name} {f : Func} (h : Allocates site c f) :
    CastsBy Q f.body := by
  cases h with
  | primitive _ hi => exact castsBy_default hi
  | @object fields _ hfields =>
      have hdefaults : CastsBy Q fields := by
        refine .of_forall fun i hi => ?_
        obtain ⟨a, -, ha⟩ := Members.Site.exists_left_of_forall₂ hfields hi
        exact castsBy_default ha
      have hnew : CastsBy Q [.plain (.structNew (classType c))
          (.plain (.globalGet (tableGlobal c)) [] :: fields)] :=
        .inside nofun (List.forall_mem_singleton.mpr (.cons (.of_none rfl) hdefaults))
      exact .cons (.inside nofun (List.forall_mem_singleton.mpr hnew)) (.of_none rfl)

theorem HasOwnBody.castsBy {site : Site} {c : Name} {m : MethodEntry} {f : Func}
    (h : HasOwnBody site c m f) : CastsBy Q f.body := by
  cases h with
  | copy =>
      refine .cons (.of_none rfl) (.inside nofun (List.forall_mem_singleton.mpr ?_))
      exact .of_forall (List.forall_mem_map.mpr fun _ _ => .of_none rfl)
  | typeName => exact .of_none rfl

theorem castsBy_genericDefinition (c : Name) (m : MethodEntry) :
    CastsBy Q (Site.genericDefinition c m).body := by
  refine .inside nofun (List.forall_mem_singleton.mpr (.cons (.of_none rfl) ?_))
  exact (CastsWhere.getLocals _ fun p : String × ValType => p.1).append (.of_none rfl)

theorem castsBy_commonFuncs {ms : Members} {common : List Func}
    (h : commonFuncs ms = .ok common) : ∀ f ∈ common, CastsBy Q f.body := by
  have hhelpers : ∀ f ∈ boxing ++ [lengthDefinition, charAtDefinition, stringEqualsDefinition,
      objectEqualsDefinition], (stackCasts [] f.body).isEmpty = true := by
    decide
  have hbodies : ∀ b ∈ builtinBodies, (stackCasts [] b.2.2.2).isEmpty = true := by
    decide
  obtain ⟨methods, hmethods, heq⟩ := except_bind_eq_ok.mp h
  cases heq
  refine List.forall_mem_append.mpr ⟨fun f hf => .of_none (List.isEmpty_iff.mp (hhelpers f hf)), ?_⟩
  intro f hf
  obtain ⟨⟨c, x, locals, body⟩, hb, hfunc⟩ :=
    Members.Site.exists_left_of_forall₂ (mapM_eq_ok_iff.mp hmethods) hf
  dsimp only at hfunc
  split at hfunc
  · cases hfunc
    exact .of_none (List.isEmpty_iff.mp (hbodies _ hb))
  · cases hfunc

variable (hQ : PartsClosed Q)

include hQ

theorem Initializes.castsBy {site : Site} {fs : List Feature} {s s' : Progress}
    {instrs : List Instr} (h : Initializes site fs s instrs s')
    (hfs : ∀ f ∈ fs, ∀ u ∈ featureUses site f, Q u) (hs : s.CastsBy Q) :
    CastsBy Q instrs ∧ s'.CastsBy Q := by
  induction h with
  | nil => exact ⟨.of_none rfl, hs⟩
  | method _ ih => exact ih (List.forall_mem_cons.mp hfs).2 hs
  | absent _ _ ih => exact ih (List.forall_mem_cons.mp hfs).2 hs
  | attr ha hwant hinit _ ih =>
      obtain ⟨hfirst, hothers⟩ := List.forall_mem_cons.mp hfs
      rw [featureUses, ha, hwant] at hfirst
      have hu := hfirst _ (List.mem_singleton_self _)
      obtain ⟨hcode, hs⟩ := hinit.castsBy hQ hu hs
      obtain ⟨hrest, hs⟩ := ih hothers hs
      refine ⟨.cons (.of_none rfl) ?_, hs⟩
      exact (castsBy_coerced hu hinit hcode).append (.cons (.of_none rfl) hrest)

theorem EmitsInit.castsBy {site : Site} {fs : List Feature} {s s' : Progress}
    (h : EmitsInit site fs s s') (hfs : ∀ f ∈ fs, ∀ u ∈ featureUses site f, Q u)
    (hs : s.CastsBy Q) : s'.CastsBy Q := by
  cases h with
  | primitive _ => exact hs
  | object _ hown =>
      obtain ⟨hcode, hs⟩ := hown.castsBy hQ hfs hs
      refine hs.emitting (.append ?_ hcode)
      unfold Site.initParent
      split <;> exact .of_none rfl

theorem EmitsMethods.castsBy {site : Site} {fs : List Feature} {s s' : Progress}
    (h : EmitsMethods site fs s s') (hfs : ∀ f ∈ fs, ∀ u ∈ featureUses site f, Q u)
    (hs : s.CastsBy Q) : s'.CastsBy Q := by
  induction h with
  | nil => exact hs
  | attr _ ih => exact ih (List.forall_mem_cons.mp hfs).2 hs
  | method hentry hbody _ ih =>
      obtain ⟨hfirst, hothers⟩ := List.forall_mem_cons.mp hfs
      rw [featureUses, hentry] at hfirst
      have hu := hfirst _ (List.mem_singleton_self _)
      obtain ⟨hcode, hs⟩ := hbody.castsBy hQ hu hs
      refine ih hothers (hs.emitting (.append ?_ (castsBy_coerced hu hbody hcode)))
      unfold Site.narrow
      split <;> exact .of_none rfl

theorem EmitsClass.castsBy {ms : Members} {pool : Pool} {c : Name} {fs : List Feature}
    {s s' : Progress} (h : EmitsClass ms pool c fs s s')
    (hfs : ∀ f ∈ fs, ∀ u ∈ featureUses (classSite ms pool c) f, Q u) (hs : s.CastsBy Q) :
    s'.CastsBy Q := by
  cases h with
  | mk hnew hinit hown hmethods =>
      have hallocators := (hs.emitting hnew.castsBy).emitting (f := Site.newVirtualDefinition c)
        (.of_none rfl)
      have hgenerics : ∀ f ∈ genericDefinitions ms c, CastsBy Q f.body :=
        List.forall_mem_map.mpr fun m _ => castsBy_genericDefinition c m
      refine hmethods.castsBy hQ hfs
        (((hinit.castsBy hQ hfs hallocators).emittingAll ?_).emittingAll hgenerics)
      intro f hf
      obtain ⟨m, -, hbody⟩ := Members.Site.exists_left_of_forall₂ hown hf
      exact hbody.castsBy

/-- The functions of classes cast where the uses in their features do. -/
theorem EmitsAll.castsBy {ms : Members} {pool : Pool} {features : Name → List Feature}
    {cs : List Name} {s s' : Progress} (h : EmitsAll ms pool features cs s s')
    (hfs : ∀ c ∈ cs, ∀ f ∈ features c, ∀ u ∈ featureUses (classSite ms pool c) f, Q u)
    (hs : s.CastsBy Q) : s'.CastsBy Q := by
  induction h with
  | nil => exact hs
  | cons hc _ ih =>
      obtain ⟨hfirst, hothers⟩ := List.forall_mem_cons.mp hfs
      exact ih hothers (hc.castsBy hQ hfirst hs)

end

end Lowering

end Cool
