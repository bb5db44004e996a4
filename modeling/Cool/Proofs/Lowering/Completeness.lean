import Cool.Proofs.Lowering.Generated
import Cool.Proofs.Tree.Complete

/-! What has code is complete. Lowering reaches every expression of a program apart from absent
initializers, and it has a rule for each of them except for an absent one and for a case without
branches, whose type no class represents. -/

namespace Cool.Lowering

open Typing (Context Accepts AcceptsAll AcceptsBranches AcceptsFeature)

/-- Whether an expression is lowered somewhere. -/
def IsLowered (e : Expr) : Prop :=
  ∃ site s code s', Lowers site e s code s'

theorem Lowers.isLowered {site : Site} {e : Expr} {s s' : Progress} {code : Code}
    (h : Lowers site e s code s') : IsLowered e :=
  ⟨site, s, code, s', h⟩

theorem LowersRest.isLowered {site : Site} {before code : Code} {es : List Expr} {s s' : Progress}
    (h : LowersRest site before es s code s') : ∀ e ∈ es, IsLowered e := by
  induction es generalizing before s with
  | nil => nofun
  | cons e es ih =>
      cases h with
      | cons he hes => exact List.forall_mem_cons.mpr ⟨he.isLowered, ih hes⟩

theorem LowersArgs.isLowered {site : Site} {ps : List Parameter} {es : List Expr} {s s' : Progress}
    {instrs : List Wat.Instr} {temps : List String}
    (h : LowersArgs site ps es s instrs temps s') : ∀ e ∈ es, IsLowered e := by
  induction es generalizing ps s instrs temps with
  | nil => nofun
  | cons e es ih =>
      cases h with
      | cons he hes => exact List.forall_mem_cons.mpr ⟨he.isLowered, ih hes⟩

theorem Lifts.isLowered {site : Site} {name : String} {x type value : Name} {body : Expr}
    {s s' : Progress} {back : List (Name × Wat.ValType)}
    (h : Lifts site name x type value body s back s') : IsLowered body := by
  cases h with
  | mk _ hbody _ => exact hbody.isLowered

theorem LowersArms.isLowered {site : Site} {name : String} {value : Name} {i : Nat}
    {bs : List Branch} {s s' : Progress} {tests : List Wat.Instr} {assigned : List Name}
    (h : LowersArms site name value i bs s tests assigned s') : ∀ b ∈ bs, IsLowered b.body := by
  induction bs generalizing i s tests assigned with
  | nil => nofun
  | cons b bs ih =>
      cases h with
      | cons hb hbs => exact List.forall_mem_cons.mpr ⟨hb.isLowered, ih hbs⟩

theorem LowersInitial.isLowered {site : Site} {type declared : Name} {init : Expr} {s s' : Progress}
    {instrs : List Wat.Instr} (h : LowersInitial site type declared init s instrs s') :
    init.isAbsent = true ∨ IsLowered init := by
  cases h with
  | default habsent _ => exact .inl habsent
  | value _ hcode => exact .inr hcode.isLowered

/-! ## Expressions -/

mutual

/-- An expression that was checked and has code is complete. -/
theorem IsLowered.isComplete {cx : Context} : ∀ (e : Expr) {scope : Scope Name Name} {e' : Expr}
    {t : Name}, Accepts cx scope e (e', t) → IsLowered e' → e.isComplete = true
  | .missing, _, _, _, h, hcode => by
      cases h
      obtain ⟨_, _, _, _, ⟨⟩⟩ := hcode
  | .noExpr _, _, _, _, h, hcode => by
      cases h
      obtain ⟨_, _, _, _, ⟨⟩⟩ := hcode
  | .int _ _, _, _, _, _, _ | .string _ _, _, _, _, _, _ | .bool _ _, _, _, _, _, _
  | .new _ _, _, _, _, _, _ | .object _ _, _, _, _, _, _ => rfl
  | .block _ body, _, _, _, h, hcode => by
      cases h with
      | @block _ _ _ rs hbody =>
          refine IsLowered.allComplete body hbody ?_
          obtain ⟨_, _, _, _, hlowers⟩ := hcode
          generalize rs.map (·.1) = es at hlowers
          cases hlowers with
          | blockNil => nofun
          | block he hrest => exact List.forall_mem_cons.mpr ⟨he.isLowered, hrest.isLowered⟩
  | .assign _ _ value, _, _, _, h, ⟨_, _, _, _, hlowers⟩ => by
      cases h with
      | assign hvalue _ _ _ =>
          cases hlowers with
          | assignLocal _ _ hcode | assignField _ _ hcode =>
              exact IsLowered.isComplete value hvalue hcode.isLowered
  | .dispatch _ receiver _ args, _, _, _, h, ⟨_, _, _, _, hlowers⟩ => by
      rw [Expr.isComplete, Bool.and_eq_true]
      cases h with
      | dispatchIllTyped hreceiver hargs | dispatch hreceiver hargs _ _ _ =>
          cases hlowers with
          | dispatch _ _ hcodes hcode =>
              exact ⟨IsLowered.isComplete receiver hreceiver hcode.isLowered,
                IsLowered.allComplete args hargs hcodes.isLowered⟩
  | .staticDispatch _ receiver _ _ args, _, _, _, h, ⟨_, _, _, _, hlowers⟩ => by
      rw [Expr.isComplete, Bool.and_eq_true]
      cases h with
      | staticDispatch hreceiver hargs _ _ _ _ _ =>
          cases hlowers with
          | staticDispatch _ hcodes hcode =>
              exact ⟨IsLowered.isComplete receiver hreceiver hcode.isLowered,
                IsLowered.allComplete args hargs hcodes.isLowered⟩
  | .cond _ pred onTrue onFalse, _, _, _, h, ⟨_, _, _, _, hlowers⟩ => by
      rw [Expr.isComplete, Bool.and_eq_true, Bool.and_eq_true]
      cases h with
      | cond hpred _ htrue hfalse =>
          cases hlowers with
          | cond _ h₀ h₁ h₂ =>
              exact ⟨⟨IsLowered.isComplete pred hpred h₀.isLowered,
                IsLowered.isComplete onTrue htrue h₁.isLowered⟩,
                IsLowered.isComplete onFalse hfalse h₂.isLowered⟩
  | .loop _ pred body, _, _, _, h, ⟨_, _, _, _, hlowers⟩ => by
      rw [Expr.isComplete, Bool.and_eq_true]
      cases h with
      | loop hpred _ hbody =>
          cases hlowers with
          | loop _ _ h₀ h₁ =>
              exact ⟨IsLowered.isComplete pred hpred h₀.isLowered,
                IsLowered.isComplete body hbody h₁.isLowered⟩
  | .caseOf _ scrutinee branches, _, _, _, h, ⟨_, _, _, _, hlowers⟩ => by
      rw [Expr.isComplete, Bool.and_eq_true, Bool.and_eq_true]
      cases h with
      | caseOf hscrutinee hbranches =>
          cases hlowers with
          | caseOf hcode hvalue _ _ harms _ =>
              refine ⟨⟨IsLowered.isComplete scrutinee hscrutinee hcode.isLowered, ?_⟩, ?_⟩
              · cases hbranches with
                | nil => exact absurd (.inr (.inl rfl)) (Site.layout_eq_ok hvalue).2
                | cons => rfl
              · exact IsLowered.allBranches branches hbranches
                  fun b hb => harms.isLowered b (mem_deepestFirst.mpr hb)
  | .letIn _ _ _ init body, _, _, _, h, ⟨_, _, _, _, hlowers⟩ => by
      rw [Expr.isComplete, Bool.and_eq_true, Bool.or_eq_true]
      cases h with
      | letIn hinit _ hbody =>
          cases hlowers with
          | letIn _ hfirst _ _ hlifts =>
              refine ⟨hfirst.isLowered.imp (fun habsent => ?_) fun hcode => ?_,
                IsLowered.isComplete body hbody hlifts.isLowered⟩
              · rwa [← hinit.isAbsent_eq]
              · exact IsLowered.isComplete init hinit hcode
  | .binary _ _ left right, _, _, _, h, ⟨_, _, _, _, hlowers⟩ => by
      rw [Expr.isComplete, Bool.and_eq_true]
      cases h with
      | binary hleft hright _ =>
          cases hlowers with
          | equality _ h₁ h₂ | integer _ h₁ h₂ =>
              exact ⟨IsLowered.isComplete left hleft h₁.isLowered,
                IsLowered.isComplete right hright h₂.isLowered⟩
  | .unary _ _ operand, _, _, _, h, ⟨_, _, _, _, hlowers⟩ => by
      cases h with
      | unary hoperand _ =>
          cases hlowers with
          | neg hcode | comp hcode | isvoid hcode =>
              exact IsLowered.isComplete operand hoperand hcode.isLowered
termination_by structural e => e

theorem IsLowered.allComplete {cx : Context} : ∀ (es : List Expr) {scope : Scope Name Name}
    {rs : List (Expr × Name)}, AcceptsAll cx scope es rs →
    (∀ e' ∈ rs.map (·.1), IsLowered e') → Expr.allComplete es = true
  | [], _, _, _, _ => rfl
  | e :: es, _, _, h, hcode => by
      rw [Expr.allComplete, Bool.and_eq_true]
      cases h with
      | cons he hes =>
          obtain ⟨hfirst, hrest⟩ := List.forall_mem_cons.mp hcode
          exact ⟨IsLowered.isComplete e he hfirst, IsLowered.allComplete es hes hrest⟩
termination_by structural es => es

theorem IsLowered.allBranches {cx : Context} : ∀ (bs : List Branch) {scope : Scope Name Name}
    {guards : List Name} {before : Option Name} {bs' : List Branch} {u : Option Name},
    AcceptsBranches cx scope guards before bs (bs', u) → (∀ b ∈ bs', IsLowered b.body) →
    Branch.allComplete bs = true
  | [], _, _, _, _, _, _, _ => rfl
  | .mk _ _ _ body :: bs, _, _, _, _, _, h, hcode => by
      rw [Branch.allComplete, Bool.and_eq_true]
      cases h with
      | cons _ _ hbody hbs =>
          obtain ⟨hfirst, hrest⟩ := List.forall_mem_cons.mp hcode
          exact ⟨IsLowered.isComplete body hbody hfirst, IsLowered.allBranches bs hbs hrest⟩
termination_by structural bs => bs

end

/-! ## Features -/

theorem Initializes.isLowered {site : Site} {fs : List Feature} {s s' : Progress}
    {instrs : List Wat.Instr} (h : Initializes site fs s instrs s') {a : Attribute}
    (ha : .attr a ∈ fs) : a.init.isAbsent = true ∨ IsLowered a.init := by
  induction h with
  | nil => cases ha
  | method _ ih =>
      rcases List.mem_cons.mp ha with heq | ha
      · cases heq
      · exact ih ha
  | absent habsent _ ih =>
      rcases List.mem_cons.mp ha with heq | ha
      · cases heq
        exact .inl habsent
      · exact ih ha
  | attr _ _ hinit _ ih =>
      rcases List.mem_cons.mp ha with heq | ha
      · cases heq
        exact .inr hinit.isLowered
      · exact ih ha

theorem EmitsMethods.isLowered {site : Site} {fs : List Feature} {s s' : Progress}
    (h : EmitsMethods site fs s s') {m : Method} (hm : .method m ∈ fs) : IsLowered m.body := by
  induction h with
  | nil => cases hm
  | attr _ ih =>
      rcases List.mem_cons.mp hm with heq | hm
      · cases heq
      · exact ih hm
  | method _ hbody _ ih =>
      rcases List.mem_cons.mp hm with heq | hm
      · cases heq
        exact hbody.isLowered
      · exact ih hm

/-- The expressions of an accepted program are complete if all its functions are emitted. -/
theorem EmitsAll.isComplete {p p' : Program} {ms : Members} (h : Pipeline.Analyzed p ms p')
    {pool : Pool} {common : List Wat.Func} {s : Progress}
    (hemits : EmitsAll ms pool (declaredFeatures p') ms.hierarchy.topological
      { funcs := common } s) :
    ∀ d ∈ p.classes, ∀ f ∈ d.features, f.isComplete = true := by
  intro d hd f hf
  obtain ⟨d', hd'⟩ := h.checked d hd
  obtain ⟨s₁, s₂, hclass, -⟩ := exists_emitsClass h hemits hd'.name_mem
  rw [declaredFeatures, if_neg (by simp [hd'.not_builtin]), hd'.found] at hclass
  obtain ⟨f', hf', haccepts⟩ := Members.Site.exists_left_of_forall₂ hd'.features.flip hf
  cases hclass with
  | mk _ hinit _ hmethods =>
      cases haccepts with
      | method hbody _ => exact IsLowered.isComplete _ hbody (hmethods.isLowered hf')
      | attr hchecked _ =>
          rw [Feature.isComplete, Bool.or_eq_true]
          cases hinit with
          | primitive hprim =>
              have hnot := not_isPrimitive hd'.not_builtin
              rw [show d.name.isPrimitive = true from hprim] at hnot
              cases hnot
          | object _ hown =>
              refine (hown.isLowered hf').imp (fun habsent => ?_) fun hcode => ?_
              · rwa [← hchecked.isAbsent_eq]
              · exact IsLowered.isComplete _ hchecked hcode

end Cool.Lowering
