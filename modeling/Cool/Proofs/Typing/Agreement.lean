import Cool.Proofs.Scope
import Cool.Proofs.Typing.Halting
import Cool.Proofs.Typing.Rules

/-! Checking agrees with the typing rules: where no class is named after the type of ill-typed
expressions, what checking lets pass is what has a derivation. -/

namespace Cool.Typing

variable {cx : Context}

theorem lookup_bind {scope : Scope Name Name} {x : Name} (hx : x ≠ .self) (t : Name) :
    (Context.bind scope x t).lookup = Env.bind scope.lookup x t := by
  funext y
  rw [Context.bind, if_neg hx, Scope.lookup_enterWith_singleton]
  rfl

/-- The rules agree with the decision procedures on the types of expressions. -/
structure Context.Proper (cx : Context) : Prop extends cx.Installed where
  errType_not_mem : Name.errType ∉ cx.hierarchy.names

namespace Context.Proper

variable (hcx : cx.Proper)

include hcx

theorem ne_errType {t : Name} (ht : cx.IsType t) : t ≠ .errType :=
  Hierarchy.IsType.ne_errType hcx.errType_not_mem ht

theorem conforms_iff {t u : Name} (ht : cx.IsType t) (hu : cx.IsType u) :
    cx.conforms t u = true ↔ cx.Conforms t u :=
  Hierarchy.conforms_iff hcx.rooted hcx.errType_not_mem ht hu

theorem isOr_iff {expected t : Name} (ht : cx.IsType t) :
    Context.isOr expected t = true ↔ t = expected := by
  simp [isOr, hcx.ne_errType ht]

theorem join_isJoin {t u : Name} (ht : cx.IsType t) (hu : cx.IsType u) :
    cx.IsJoin [t, u] (cx.join t u) :=
  Hierarchy.join_isJoin hcx.rooted hcx.errType_not_mem hcx.current_mem ht hu

/-- Arguments are checked against the parameters of the method that is called. -/
theorem argumentsConform_iff {t : Name} (ht : cx.IsType t) {m : MethodEntry} (hm : cx.Offers t m)
    {rs : List (Expr × Name)} (hrs : ∀ u ∈ rs.map (·.2), cx.IsType u) :
    cx.ArgumentsConform m.params rs ↔ cx.Takes m (rs.map (·.2)) := by
  have hparams := (hcx.seenMethod ht hm).params_typed
  unfold ArgumentsConform Takes
  rw [List.forall₂_map_right_iff]
  generalize m.params = params at hparams
  induction params generalizing rs with
  | nil => cases rs <;> simp
  | cons p params ih =>
      cases rs with
      | nil => simp
      | cons r rs =>
          rw [List.map_cons, List.forall_mem_cons] at hrs
          rw [List.forall_mem_cons] at hparams
          rw [List.forall₂_cons, List.forall₂_cons]
          exact and_congr (hcx.conforms_iff hrs.1 (Or.inr hparams.1)) (ih hrs.2 hparams.2)

theorem integers_iff {op : BinaryOp} (hop : op ≠ .eq) {t u : Name} (ht : cx.IsType t)
    (hu : cx.IsType u) : OperandsFit op t u ↔ t = .int ∧ u = .int := by
  rw [OperandsFit, if_neg hop, hcx.isOr_iff ht, hcx.isOr_iff hu]

theorem equality_iff {t u : Name} (ht : cx.IsType t) (hu : cx.IsType u) :
    OperandsFit .eq t u ↔ (t.isPrimitive = true ∨ u.isPrimitive = true → t = u) := by
  rw [OperandsFit, if_pos rfl]
  simp only [hcx.ne_errType ht, hcx.ne_errType hu, or_false]
  tauto

end Context.Proper

/-- The join of the types before a branch, of which there may be none. -/
def Context.JoinOf (cx : Context) (ts : List Name) : Option Name → Prop
  | none => ts = []
  | some t => cx.IsJoin ts t

theorem Context.Proper.joinAfter_joinOf (hcx : cx.Proper) {ts : List Name} {before : Option Name}
    (hb : cx.JoinOf ts before) {t : Name} (ht : cx.IsType t) :
    cx.JoinOf (ts ++ [t]) (some (cx.joinAfter before t)) := by
  cases before with
  | none =>
      obtain rfl : ts = [] := hb
      exact Hierarchy.IsJoin.singleton ht
  | some u =>
      have hu := hcx.isType_of_isJoin hb
      exact Hierarchy.IsJoin.append_singleton hcx.rooted hb (hcx.join_isJoin hu ht)

theorem lastType_eq (rs : List (Expr × Name)) :
    lastType rs = (rs.map (·.2)).getLastD .object := by
  rw [lastType, List.getLastD_eq_getLast?, List.getLast?_map]
  cases rs.getLast? <;> rfl

theorem covers_bind {scope : Scope Name Name} (hΓ : cx.Covers scope.lookup) {x t : Name}
    (hx : x ≠ .self) (ht : cx.IsType t) : cx.Covers (Context.bind scope x t).lookup := by
  rw [lookup_bind hx]
  exact hΓ.bind ht

theorem typeDefined_iff {t : Name} : cx.members.typeDefined t = true ↔ cx.IsType t := by
  simp [Members.typeDefined, Context.IsType, Hierarchy.IsType, Context.hierarchy,
    Hierarchy.has_iff]

/-- Checking annotates an expression and leaves its form as it is. -/
theorem Accepts.isAbsent_eq {scope : Scope Name Name} {e e' : Expr} {t : Name}
    (h : Accepts cx scope e (e', t)) : e'.isAbsent = e.isAbsent := by
  cases h <;> rfl

theorem Accepts.eq_untyped {scope : Scope Name Name} {e e' : Expr} {t : Name}
    (h : Accepts cx scope e (e', t)) (he : e.isAbsent = true) : e' = e.untyped := by
  cases h
  case missing => rfl
  case noExpr => rfl
  all_goals cases he

theorem Expr.isAbsent_untyped (e : Expr) : e.untyped.isAbsent = e.isAbsent := by
  cases e <;> rfl

/-- A binding is of a variable other than the receiver, with or without an initializer. -/
theorem HasType.binding {L : Env} {e init' body' : Expr} {m : Mark} {x type t : Name}
    (h : HasType cx L e (.letIn m x type init' body') t) :
    ∃ m₀ init body, e = .letIn m₀ x type init body ∧ x ≠ .self ∧ cx.IsType type ∧
      (init'.isAbsent = true ∨ ∃ t₀, HasType cx L init init' t₀ ∧ cx.Conforms t₀ type) ∧
      HasType cx (L.bind x type) body body' t := by
  cases h with
  | letIn hx ht hinit hconforms hbody =>
      exact ⟨_, _, _, rfl, hx, ht, .inr ⟨_, hinit, hconforms⟩, hbody⟩
  | letDefault hx ht habsent hbody =>
      exact ⟨_, _, _, rfl, hx, ht, .inl ((Expr.isAbsent_untyped _).trans habsent), hbody⟩

theorem Accepts.untyped {scope : Scope Name Name} {e : Expr} (he : e.isAbsent = true) :
    Accepts cx scope e (e.untyped, .noType) := by
  cases e
  case missing => exact .missing
  case noExpr => exact .noExpr
  all_goals cases he

/-! ## What is accepted has a derivation -/

mutual

theorem Accepts.hasType (hcx : cx.Proper) : ∀ (e : Expr) {scope : Scope Name Name} {e' : Expr}
    {t : Name}, cx.Covers scope.lookup → e.isComplete = true → Accepts cx scope e (e', t) →
    HasType cx scope.lookup e e' t
  | .missing, _, _, _, _, he, _ => by simp [Expr.isComplete] at he
  | .noExpr _, _, _, _, _, he, _ => by simp [Expr.isComplete] at he
  | .block m body, scope, _, _, hΓ, he, h => by
      rw [Expr.isComplete] at he
      cases h with
      | block hbody =>
          rw [lastType_eq]
          exact .block (AcceptsAll.hasTypes hcx body hΓ he hbody)
  | .assign m x value, scope, _, _, hΓ, he, h => by
      rw [Expr.isComplete] at he
      cases h with
      | assign hvalue hself hx hc =>
          have hv := Accepts.hasType hcx value hΓ he hvalue
          exact .assign hself hx hv
            ((hcx.conforms_iff (hv.isType hcx.toInstalled hΓ) (hΓ _ _ hx)).mp hc)
  | .dispatch m receiver method args, scope, _, _, hΓ, he, h => by
      simp only [Expr.isComplete, Bool.and_eq_true] at he
      cases h with
      | dispatchIllTyped hr hargs =>
          have hr := (Accepts.hasType hcx receiver hΓ he.1 hr).isType hcx.toInstalled hΓ
          exact absurd rfl (hcx.ne_errType hr)
      | dispatch hr hargs _ hm hconform =>
          have hr := Accepts.hasType hcx receiver hΓ he.1 hr
          have ht := hr.isType hcx.toInstalled hΓ
          have hargs := AcceptsAll.hasTypes hcx args hΓ he.2 hargs
          obtain ⟨hoffers, rfl⟩ := (hcx.method?_eq_some_iff ht).mp hm
          exact .dispatch hr hargs hoffers ((hcx.argumentsConform_iff ht hoffers
            (hargs.isType hcx.toInstalled hΓ)).mp hconform)
  | .staticDispatch m receiver target method args, scope, _, _, hΓ, he, h => by
      simp only [Expr.isComplete, Bool.and_eq_true] at he
      cases h with
      | staticDispatch hr hargs _ hhas hc hm hconform =>
          have hr := Accepts.hasType hcx receiver hΓ he.1 hr
          have hargs := AcceptsAll.hasTypes hcx args hΓ he.2 hargs
          have hmem := Hierarchy.has_iff.mp hhas
          obtain ⟨hoffers, rfl⟩ := (hcx.method?_eq_some_iff (Or.inr hmem)).mp hm
          exact .staticDispatch hr hargs hmem
            ((hcx.conforms_iff (hr.isType hcx.toInstalled hΓ) (Or.inr hmem)).mp hc) hoffers
            ((hcx.argumentsConform_iff (Or.inr hmem) hoffers
              (hargs.isType hcx.toInstalled hΓ)).mp hconform)
  | .cond m pred onTrue onFalse, scope, _, _, hΓ, he, h => by
      simp only [Expr.isComplete, Bool.and_eq_true] at he
      cases h with
      | cond hp hbool h₁ h₂ =>
          have hp := Accepts.hasType hcx pred hΓ he.1.1 hp
          have h₁ := Accepts.hasType hcx onTrue hΓ he.1.2 h₁
          have h₂ := Accepts.hasType hcx onFalse hΓ he.2 h₂
          rw [hcx.isOr_iff (hp.isType hcx.toInstalled hΓ)] at hbool
          subst hbool
          exact .cond hp h₁ h₂
            (hcx.join_isJoin (h₁.isType hcx.toInstalled hΓ) (h₂.isType hcx.toInstalled hΓ))
  | .loop m pred body, scope, _, _, hΓ, he, h => by
      simp only [Expr.isComplete, Bool.and_eq_true] at he
      cases h with
      | loop hp hbool hbody =>
          have hp := Accepts.hasType hcx pred hΓ he.1 hp
          rw [hcx.isOr_iff (hp.isType hcx.toInstalled hΓ)] at hbool
          subst hbool
          exact .loop hp (Accepts.hasType hcx body hΓ he.2 hbody)
  | .caseOf m scrutinee branches, scope, _, _, hΓ, he, h => by
      simp only [Expr.isComplete, Bool.and_eq_true, Bool.not_eq_true', List.isEmpty_eq_false_iff]
        at he
      cases h with
      | caseOf hs hbs =>
          rename_i u
          have hs := Accepts.hasType hcx scrutinee hΓ he.1.1 hs
          obtain ⟨ts, hbranches, hlen, hnodup, -, hjoin⟩ :=
            AcceptsBranches.hasBranches hcx branches hΓ he.2 hbs
          have hjoin := hjoin [] rfl
          cases u with
          | none =>
              obtain rfl : ts = [] := hjoin
              exact absurd (List.eq_nil_of_length_eq_zero hlen.symm) he.1.2
          | some t => exact .caseOf hs hbranches he.1.2 hnodup hjoin
  | .letIn m x type init body, scope, _, _, hΓ, he, h => by
      simp only [Expr.isComplete, Bool.and_eq_true, Bool.or_eq_true] at he
      cases h with
      | letIn hinit hfit hbody =>
          obtain ⟨hdefined, hconf, hself⟩ := hfit
          have htype := typeDefined_iff.mp hdefined
          have hbody := Accepts.hasType hcx body (covers_bind hΓ hself htype) he.2 hbody
          rw [lookup_bind hself] at hbody
          rcases he.1 with habsent | hcomplete
          · obtain rfl := hinit.eq_untyped habsent
            exact .letDefault hself htype habsent hbody
          · have hi := Accepts.hasType hcx init hΓ hcomplete hinit
            have ht := hi.isType hcx.toInstalled hΓ
            rw [hinit.isAbsent_eq, Expr.not_isAbsent hcomplete] at hconf
            exact .letIn hself htype hi
              ((hcx.conforms_iff ht htype).mp (hconf.resolve_left Bool.false_ne_true)) hbody
  | .binary m op left right, scope, _, _, hΓ, he, h => by
      simp only [Expr.isComplete, Bool.and_eq_true] at he
      cases h with
      | binary hl hr hfit =>
          have hl := Accepts.hasType hcx left hΓ he.1 hl
          have hr := Accepts.hasType hcx right hΓ he.2 hr
          have ht := hl.isType hcx.toInstalled hΓ
          have hu := hr.isType hcx.toInstalled hΓ
          by_cases hop : op = .eq
          · subst hop
            exact .equality hl hr ((hcx.equality_iff ht hu).mp hfit)
          · rw [Context.OperandsFit, if_neg hop, hcx.isOr_iff ht, hcx.isOr_iff hu] at hfit
            obtain ⟨rfl, rfl⟩ := hfit
            cases ha : op.isArithmetic with
            | true =>
                simp only [Context.binaryType, ha, if_true]
                exact .arithmetic ha hl hr
            | false =>
                simp only [Context.binaryType, ha]
                exact .comparison ha hop hl hr
  | .unary m op operand, scope, _, _, hΓ, he, h => by
      rw [Expr.isComplete] at he
      cases h with
      | unary ho hfit =>
          have ho := Accepts.hasType hcx operand hΓ he ho
          have ht := ho.isType hcx.toInstalled hΓ
          cases op with
          | neg =>
              obtain rfl := (hcx.isOr_iff ht).mp (hfit.1 rfl)
              exact .neg ho
          | comp =>
              obtain rfl := (hcx.isOr_iff ht).mp (hfit.2 rfl)
              exact .comp ho
          | isvoid => exact .test nofun nofun ho
          | unknown i => exact .test nofun nofun ho
  | .int _ _, _, _, _, _, _, h => by
      cases h
      exact .int
  | .string _ _, _, _, _, _, _, h => by
      cases h
      exact .string
  | .bool _ _, _, _, _, _, _, h => by
      cases h
      exact .bool
  | .new _ _, _, _, _, _, _, h => by
      cases h with
      | new ht => exact .new (ht.imp_right Hierarchy.has_iff.mp)
  | .object _ _, _, _, _, _, _, h => by
      cases h with
      | object hx => exact .object hx
termination_by structural e => e

theorem AcceptsAll.hasTypes (hcx : cx.Proper) : ∀ (es : List Expr) {scope : Scope Name Name}
    {rs : List (Expr × Name)}, cx.Covers scope.lookup → Expr.allComplete es = true →
    AcceptsAll cx scope es rs → HasTypes cx scope.lookup es (rs.map (·.1)) (rs.map (·.2))
  | [], _, _, _, _, h => by
      cases h
      exact .nil
  | e :: es, _, _, hΓ, he, h => by
      rw [Expr.allComplete, Bool.and_eq_true] at he
      cases h with
      | cons h₁ h₂ =>
          exact .cons (Accepts.hasType hcx e hΓ he.1 h₁) (AcceptsAll.hasTypes hcx es hΓ he.2 h₂)
termination_by structural es => es

/-- The type of a case is built branch by branch, from the join of the types before. -/
theorem AcceptsBranches.hasBranches (hcx : cx.Proper) : ∀ (bs : List Branch)
    {scope : Scope Name Name} {guards : List Name} {before : Option Name} {bs' : List Branch}
    {u : Option Name}, cx.Covers scope.lookup → Branch.allComplete bs = true →
    AcceptsBranches cx scope guards before bs (bs', u) →
    ∃ ts, HasBranches cx scope.lookup bs bs' ts ∧ ts.length = bs.length ∧
      (bs.map Branch.type).Nodup ∧ (∀ g ∈ guards, g ∉ bs.map Branch.type) ∧
      ∀ us, cx.JoinOf us before → cx.JoinOf (us ++ ts) u
  | [], _, _, _, _, _, _, _, h => by
      cases h
      exact ⟨[], .nil, rfl, by simp, by simp, by simp⟩
  | .mk span x guard body :: bs, scope, guards, before, _, _, hΓ, he, h => by
      rw [Branch.allComplete, Bool.and_eq_true] at he
      cases h with
      | cons hnew hfit hbody hrest =>
          obtain ⟨-, hhas, hself⟩ := hfit
          have hmem := Hierarchy.has_iff.mp hhas
          have hbody := Accepts.hasType hcx body (covers_bind hΓ hself (Or.inr hmem)) he.1 hbody
          rw [lookup_bind hself] at hbody
          have ht := hbody.isType hcx.toInstalled (hΓ.bind (Or.inr hmem))
          obtain ⟨ts, hbranches, hlen, hnodup, hapart, hjoin⟩ :=
            AcceptsBranches.hasBranches hcx bs hΓ he.2 hrest
          refine ⟨_ :: ts, .cons hself hmem hbody hbranches, by simp [hlen], ?_, ?_, ?_⟩
          · exact List.nodup_cons.mpr ⟨hapart guard List.mem_cons_self, hnodup⟩
          · intro g hg hin
            rcases List.mem_cons.mp hin with rfl | hin
            · exact hnew hg
            · exact hapart g (List.mem_cons_of_mem _ hg) hin
          · intro us hus
            simpa using hjoin _ (hcx.joinAfter_joinOf hus ht)
termination_by structural bs => bs

end

/-! ## What has a derivation is accepted -/

mutual

theorem HasType.accepts (hcx : cx.Proper) : ∀ (e : Expr) {scope : Scope Name Name} {e' : Expr}
    {t : Name}, cx.Covers scope.lookup → HasType cx scope.lookup e e' t →
    Accepts cx scope e (e', t)
  | .missing, _, _, _, _, h => by cases h
  | .noExpr _, _, _, _, _, h => by cases h
  | .block m body, scope, _, _, hΓ, h => by
      cases h with
      | block hbody =>
          obtain ⟨rs, rfl, rfl, hrs⟩ := HasTypes.accepts hcx body hΓ hbody
          rw [← lastType_eq]
          exact .block hrs
  | .assign m x value, scope, _, _, hΓ, h => by
      cases h with
      | assign hself hx hvalue hc =>
          have ht := hvalue.isType hcx.toInstalled hΓ
          exact .assign (HasType.accepts hcx value hΓ hvalue) hself hx
            ((hcx.conforms_iff ht (hΓ _ _ hx)).mpr hc)
  | .dispatch m receiver method args, scope, _, _, hΓ, h => by
      cases h with
      | dispatch hr hargs hoffers htakes =>
          have ht := hr.isType hcx.toInstalled hΓ
          have hts := hargs.isType hcx.toInstalled hΓ
          obtain ⟨rs, rfl, rfl, hrs⟩ := HasTypes.accepts hcx args hΓ hargs
          exact .dispatch (HasType.accepts hcx receiver hΓ hr) hrs (hcx.ne_errType ht)
            ((hcx.method?_eq_some_iff ht).mpr ⟨hoffers, rfl⟩)
            ((hcx.argumentsConform_iff ht hoffers hts).mpr htakes)
  | .staticDispatch m receiver target method args, scope, _, _, hΓ, h => by
      cases h with
      | staticDispatch hr hargs hmem hc hoffers htakes =>
          have ht := hr.isType hcx.toInstalled hΓ
          have hts := hargs.isType hcx.toInstalled hΓ
          have htarget : cx.IsType target := Or.inr hmem
          obtain ⟨rs, rfl, rfl, hrs⟩ := HasTypes.accepts hcx args hΓ hargs
          exact .staticDispatch (HasType.accepts hcx receiver hΓ hr) hrs
            (hcx.coherent.ne_selfType hmem) (Hierarchy.has_iff.mpr hmem)
            ((hcx.conforms_iff ht htarget).mpr hc)
            ((hcx.method?_eq_some_iff htarget).mpr ⟨hoffers, rfl⟩)
            ((hcx.argumentsConform_iff htarget hoffers hts).mpr htakes)
  | .cond m pred onTrue onFalse, scope, _, _, hΓ, h => by
      cases h with
      | cond hp h₁ h₂ hj =>
          have hbool := (hcx.isOr_iff (hp.isType hcx.toInstalled hΓ)).mpr rfl
          have hjoin :=
            hcx.join_isJoin (h₁.isType hcx.toInstalled hΓ) (h₂.isType hcx.toInstalled hΓ)
          obtain rfl := Hierarchy.IsJoin.unique hcx.rooted hj hjoin
          exact .cond (HasType.accepts hcx pred hΓ hp) hbool (HasType.accepts hcx onTrue hΓ h₁)
            (HasType.accepts hcx onFalse hΓ h₂)
  | .loop m pred body, scope, _, _, hΓ, h => by
      cases h with
      | loop hp hbody =>
          have hbool := (hcx.isOr_iff (hp.isType hcx.toInstalled hΓ)).mpr rfl
          exact .loop (HasType.accepts hcx pred hΓ hp) hbool (HasType.accepts hcx body hΓ hbody)
  | .caseOf m scrutinee branches, scope, _, _, hΓ, h => by
      cases h with
      | caseOf hs hbs hne hnodup hj =>
          have hempty : cx.JoinOf [] none := rfl
          obtain ⟨u, hbranches, hlen, hu⟩ := HasBranches.accepts hcx branches hΓ hbs hnodup
            (fun g (hg : g ∈ []) => absurd hg List.not_mem_nil) hempty
          cases u with
          | none =>
              have hnil := congrArg List.length (show _ = [] from hu)
              exact absurd (List.eq_nil_of_length_eq_zero (hlen.symm.trans hnil)) hne
          | some t =>
              obtain rfl := Hierarchy.IsJoin.unique hcx.rooted hj hu
              exact .caseOf (HasType.accepts hcx scrutinee hΓ hs) hbranches
  | .letIn m x type init body, scope, _, _, hΓ, h => by
      cases h with
      | letIn hself htype hinit hc hbody =>
          rw [← lookup_bind hself] at hbody
          have ht := hinit.isType hcx.toInstalled hΓ
          exact .letIn (HasType.accepts hcx init hΓ hinit)
            ⟨typeDefined_iff.mpr htype, Or.inr ((hcx.conforms_iff ht htype).mpr hc), hself⟩
            (HasType.accepts hcx body (covers_bind hΓ hself htype) hbody)
      | letDefault hself htype habsent hbody =>
          rw [← lookup_bind hself] at hbody
          exact .letIn (Accepts.untyped habsent)
            ⟨typeDefined_iff.mpr htype, Or.inl (by rw [Expr.isAbsent_untyped, habsent]), hself⟩
            (HasType.accepts hcx body (covers_bind hΓ hself htype) hbody)
  | .binary m op left right, scope, _, _, hΓ, h => by
      cases h with
      | arithmetic ha hl hr =>
          have hop : op ≠ .eq := by
            rintro rfl
            cases ha
          have hint := hcx.isType_builtin (c := .int) rfl
          have h := Accepts.binary (m := m) (HasType.accepts hcx left hΓ hl)
            (HasType.accepts hcx right hΓ hr) ((hcx.integers_iff hop hint hint).mpr ⟨rfl, rfl⟩)
          rwa [Context.binaryType, if_pos ha] at h
      | comparison ha hop hl hr =>
          have hint := hcx.isType_builtin (c := .int) rfl
          have h := Accepts.binary (m := m) (HasType.accepts hcx left hΓ hl)
            (HasType.accepts hcx right hΓ hr) ((hcx.integers_iff hop hint hint).mpr ⟨rfl, rfl⟩)
          rwa [Context.binaryType, if_neg (by simp [ha])] at h
      | equality hl hr heq =>
          have hfit := (hcx.equality_iff (hl.isType hcx.toInstalled hΓ)
            (hr.isType hcx.toInstalled hΓ)).mpr heq
          exact .binary (HasType.accepts hcx left hΓ hl) (HasType.accepts hcx right hΓ hr) hfit
  | .unary m op operand, scope, _, _, hΓ, h => by
      cases h with
      | neg ho =>
          have hint := (hcx.isOr_iff (ho.isType hcx.toInstalled hΓ)).mpr rfl
          exact .unary (HasType.accepts hcx operand hΓ ho) ⟨fun _ => hint, nofun⟩
      | comp ho =>
          have hbool := (hcx.isOr_iff (ho.isType hcx.toInstalled hΓ)).mpr rfl
          exact .unary (HasType.accepts hcx operand hΓ ho) ⟨nofun, fun _ => hbool⟩
      | test hneg hcomp ho =>
          have h := Accepts.unary (m := m) (HasType.accepts hcx operand hΓ ho)
            ⟨fun h => absurd h hneg, fun h => absurd h hcomp⟩
          rwa [Context.unaryType, if_neg hneg] at h
  | .int _ _, _, _, _, _, h => by
      cases h
      exact .int
  | .string _ _, _, _, _, _, h => by
      cases h
      exact .string
  | .bool _ _, _, _, _, _, h => by
      cases h
      exact .bool
  | .new _ _, _, _, _, _, h => by
      cases h with
      | new ht => exact .new (ht.imp_right Hierarchy.has_iff.mpr)
  | .object _ _, _, _, _, _, h => by
      cases h with
      | object hx => exact .object hx
termination_by structural e => e

theorem HasTypes.accepts (hcx : cx.Proper) : ∀ (es : List Expr) {scope : Scope Name Name}
    {es' : List Expr} {ts : List Name}, cx.Covers scope.lookup →
    HasTypes cx scope.lookup es es' ts →
    ∃ rs : List (Expr × Name), es' = rs.map (·.1) ∧ ts = rs.map (·.2) ∧ AcceptsAll cx scope es rs
  | [], _, _, _, _, h => by
      cases h
      exact ⟨[], rfl, rfl, .nil⟩
  | e :: es, _, _, _, hΓ, h => by
      cases h with
      | cons h₁ h₂ =>
          obtain ⟨rs, rfl, rfl, hrs⟩ := HasTypes.accepts hcx es hΓ h₂
          exact ⟨_ :: rs, rfl, rfl, .cons (HasType.accepts hcx e hΓ h₁) hrs⟩
termination_by structural es => es

theorem HasBranches.accepts (hcx : cx.Proper) : ∀ (bs : List Branch) {scope : Scope Name Name}
    {bs' : List Branch} {ts : List Name}, cx.Covers scope.lookup →
    HasBranches cx scope.lookup bs bs' ts → (bs.map Branch.type).Nodup →
    ∀ {guards : List Name}, (∀ g ∈ guards, g ∉ bs.map Branch.type) →
    ∀ {us : List Name} {before : Option Name}, cx.JoinOf us before →
    ∃ u, AcceptsBranches cx scope guards before bs (bs', u) ∧ ts.length = bs.length ∧
      cx.JoinOf (us ++ ts) u
  | [], _, _, _, _, h, _, _, _, us, before, hus => by
      cases h
      exact ⟨before, .nil, rfl, by simpa using hus⟩
  | .mk span x guard body :: bs, scope, _, _, hΓ, h, hnodup, guards, hapart, us, before, hus => by
      cases h with
      | cons hself hmem hbody hrest =>
          have ht := hbody.isType hcx.toInstalled (hΓ.bind (Or.inr hmem))
          rw [← lookup_bind hself] at hbody
          rw [List.map_cons, List.nodup_cons] at hnodup
          have hnew : guard ∉ guards := fun hg => hapart guard hg List.mem_cons_self
          have hapart' : ∀ g ∈ guard :: guards, g ∉ bs.map Branch.type :=
            List.forall_mem_cons.mpr
              ⟨hnodup.1, fun g hg hin => hapart g hg (List.mem_cons_of_mem _ hin)⟩
          obtain ⟨u, hbranches, hlen, hu⟩ := HasBranches.accepts hcx bs hΓ hrest hnodup.2 hapart'
            (hcx.joinAfter_joinOf hus ht)
          have hfit : cx.GuardFits x guard :=
            ⟨hcx.coherent.ne_selfType hmem, Hierarchy.has_iff.mpr hmem, hself⟩
          have hbody := HasType.accepts hcx body (covers_bind hΓ hself (Or.inr hmem)) hbody
          exact ⟨u, .cons hnew hfit hbody hbranches, by simp [hlen], by simpa using hu⟩
termination_by structural bs => bs

end

/-! ## Checking and the rules -/

theorem accepts_iff_hasType (hcx : cx.Proper) {scope : Scope Name Name}
    (hΓ : cx.Covers scope.lookup) {e : Expr} (he : e.isComplete = true) {e' : Expr} {t : Name} :
    Accepts cx scope e (e', t) ↔ HasType cx scope.lookup e e' t :=
  ⟨Accepts.hasType hcx e hΓ he, HasType.accepts hcx e hΓ⟩

/-- Where every part of an expression is there, checking it reports nothing exactly if the
expression has a type. It then returns that type, which is the only one, and the tree in which every
part carries the type of its own derivation. -/
theorem check_reports_nothing_iff_hasType {p : Program} {ms : Members}
    (hb : Members.build (Hierarchy.build p).1 = .ok (ms, []))
    (herr : Name.errType ∉ ms.hierarchy.names) {current : Name}
    (hcur : current ∈ ms.hierarchy.names) {scope : Scope Name Name}
    (hΓ : (⟨ms, current⟩ : Context).Covers scope.lookup) {e : Expr} (he : e.isComplete = true)
    {j : Journal} (hj : j.halted = false) :
    (((check ⟨ms, current⟩ scope e).run j).2.reports = j.reports ↔
        ∃ e' t, HasType ⟨ms, current⟩ scope.lookup e e' t) ∧
      ∀ e' t, HasType ⟨ms, current⟩ scope.lookup e e' t →
        ((check ⟨ms, current⟩ scope e).run j).1 = (e', t) := by
  have hcx : (⟨ms, current⟩ : Context).Proper := ⟨installed_of_build hb hcur, herr⟩
  have hdecides := decides_check ⟨ms, current⟩ scope e
  have hsilent : ∀ e' t, HasType ⟨ms, current⟩ scope.lookup e e' t →
      (check ⟨ms, current⟩ scope e).run j = ((e', t), j) := fun e' t h =>
    hdecides.silent ((accepts_iff_hasType hcx hΓ he).mpr h) j hj
  refine ⟨⟨fun hnone => ?_, ?_⟩, fun e' t h => by rw [hsilent e' t h]⟩
  · by_contra hno
    have hreported := hdecides.reported (fun r hr => hno
      ⟨r.1, r.2, (accepts_iff_hasType hcx hΓ he).mp hr⟩) j hj
    rcases hreported with hhalt | hlt
    · rw [(steady_check ⟨ms, current⟩ scope e he j).1, hj] at hhalt
      cases hhalt
    · rw [hnone] at hlt
      exact Nat.lt_irrefl _ hlt
  · rintro ⟨e', t, h⟩
    rw [hsilent e' t h]

/-- The tree of `let x : IO in if isvoid x then x.out_int(1) else new Object fi`. -/
def voidPrinter : Expr :=
  let m : Mark := { span := ⟨"void.cl", 1⟩ }
  let x : Name := .named "x"
  .letIn m x .io (.noExpr m)
    (.cond m (.unary m .isvoid (.object m x)) (.dispatch m (.object m x) .outInt [.int m "1"])
      (.new m .object))

theorem check_reports_nothing_on_voidPrinter :
    ∃ ms, Members.build (Hierarchy.build ⟨⟨"void.cl", 1⟩, []⟩).1 = .ok (ms, []) ∧
      Name.errType ∉ ms.hierarchy.names ∧ Name.io ∈ ms.hierarchy.names ∧
      voidPrinter.isComplete = true ∧
      ∃ e' t, HasType ⟨ms, .io⟩
        (({} : Scope Name Name).enterWith [(.self, .selfType)]).lookup voidPrinter e' t := by
  have hb := Members.build_eq_ok (h := (Hierarchy.build ⟨⟨"void.cl", 1⟩, []⟩).1) rfl rfl
  refine ⟨_, hb, by decide, by decide, rfl, ?_⟩
  refine (check_reports_nothing_iff_hasType (j := {}) hb (by decide) (by decide) ?_ rfl rfl).1.mp rfl
  intro x t hx
  rw [Scope.lookup_enterWith_singleton] at hx
  split at hx
  · exact Or.inl (Option.some.inj hx).symm
  · cases hx

end Cool.Typing
