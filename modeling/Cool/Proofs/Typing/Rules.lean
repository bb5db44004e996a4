import Cool.Proofs.Members.Inheritance
import Cool.Proofs.Tree.Complete
import Cool.Typing.Check

/-! The typing rules of the language. A derivation gives an expression its type, and it gives the
tree in which every part carries the type the derivation has for it. -/

namespace Cool

/-- An absent expression with the type that stands for none. -/
def Expr.untyped : Expr → Expr
  | .noExpr m => .noExpr { m with type := .noType }
  | e => e

namespace Typing

/-- The types of the variables an expression sees. -/
abbrev Env := Name → Option Name

/-- The types seen once a variable is bound. -/
def Env.bind (Γ : Env) (x t : Name) : Env :=
  fun y => if y = x then some t else Γ y

namespace Context

def Conforms (cx : Context) : Name → Name → Prop :=
  cx.hierarchy.Conforms cx.current

def IsType (cx : Context) (t : Name) : Prop :=
  cx.hierarchy.IsType t

/-- The least type that all of the given types conform to. -/
def IsJoin (cx : Context) : List Name → Name → Prop :=
  cx.hierarchy.IsJoin cx.current

/-- The methods that values of a type have: those of its class, which for the self type is the
current class. -/
def Offers (cx : Context) (t : Name) (m : MethodEntry) : Prop :=
  m ∈ cx.members.methods (Members.resolve t cx.current) (Members.resolve t cx.current)

/-- The types of the arguments conform to those of the parameters, one for one. -/
def Takes (cx : Context) (m : MethodEntry) (ts : List Name) : Prop :=
  List.Forall₂ (fun p t => cx.Conforms t p.type) m.params ts

end Context

mutual

/-- `HasType cx Γ e e' t`: under the variables `Γ` the expression `e` has the type `t`, and `e'` is
`e` with the types of all its parts. -/
inductive HasType (cx : Context) : Env → Expr → Expr → Name → Prop where
  | object {Γ m x t} : Γ x = some t →
      HasType cx Γ (.object m x) (.object { m with type := t } x) t
  | assign {Γ m x e e' t u} : x ≠ .self → Γ x = some u → HasType cx Γ e e' t →
      cx.Conforms t u →
      HasType cx Γ (.assign m x e) (.assign { m with type := t } x e') t
  | int {Γ m token} : HasType cx Γ (.int m token) (.int { m with type := .int } token) .int
  | string {Γ m s} : HasType cx Γ (.string m s) (.string { m with type := .string } s) .string
  | bool {Γ m b} : HasType cx Γ (.bool m b) (.bool { m with type := .bool } b) .bool
  | new {Γ m t} : cx.IsType t → HasType cx Γ (.new m t) (.new { m with type := t } t) t
  | dispatch {Γ m e e' t f args args' ts} : HasType cx Γ e e' t → HasTypes cx Γ args args' ts →
      cx.Offers t f → cx.Takes f ts →
      HasType cx Γ (.dispatch m e f.name args)
        (.dispatch { m with type := Context.callType f t } e' f.name args') (Context.callType f t)
  | staticDispatch {Γ m e e' t c f args args' ts} : HasType cx Γ e e' t →
      HasTypes cx Γ args args' ts → c ∈ cx.hierarchy.names → cx.Conforms t c → cx.Offers c f →
      cx.Takes f ts →
      HasType cx Γ (.staticDispatch m e c f.name args)
        (.staticDispatch { m with type := Context.callType f t } e' c f.name args')
        (Context.callType f t)
  | cond {Γ m e₀ e₀' e₁ e₁' t₁ e₂ e₂' t₂ t} : HasType cx Γ e₀ e₀' .bool → HasType cx Γ e₁ e₁' t₁ →
      HasType cx Γ e₂ e₂' t₂ → cx.IsJoin [t₁, t₂] t →
      HasType cx Γ (.cond m e₀ e₁ e₂) (.cond { m with type := t } e₀' e₁' e₂') t
  | loop {Γ m e₀ e₀' e₁ e₁' t} : HasType cx Γ e₀ e₀' .bool → HasType cx Γ e₁ e₁' t →
      HasType cx Γ (.loop m e₀ e₁) (.loop { m with type := .object } e₀' e₁') .object
  | block {Γ m es es' ts} : HasTypes cx Γ es es' ts →
      HasType cx Γ (.block m es)
        (.block { m with type := ts.getLastD .object } es') (ts.getLastD .object)
  | caseOf {Γ m e e' u bs bs' ts t} : HasType cx Γ e e' u → HasBranches cx Γ bs bs' ts →
      bs ≠ [] → (bs.map Branch.type).Nodup → cx.IsJoin ts t →
      HasType cx Γ (.caseOf m e bs) (.caseOf { m with type := t } e' bs') t
  | letIn {Γ m x t e₀ e₀' t₀ e₁ e₁' t₁} : x ≠ .self → cx.IsType t → HasType cx Γ e₀ e₀' t₀ →
      cx.Conforms t₀ t → HasType cx (Γ.bind x t) e₁ e₁' t₁ →
      HasType cx Γ (.letIn m x t e₀ e₁) (.letIn { m with type := t₁ } x t e₀' e₁') t₁
  | letDefault {Γ m x t e₀ e₁ e₁' t₁} : x ≠ .self → cx.IsType t → e₀.isAbsent = true →
      HasType cx (Γ.bind x t) e₁ e₁' t₁ →
      HasType cx Γ (.letIn m x t e₀ e₁) (.letIn { m with type := t₁ } x t e₀.untyped e₁') t₁
  | arithmetic {Γ m op e₁ e₁' e₂ e₂'} : op.isArithmetic = true → HasType cx Γ e₁ e₁' .int →
      HasType cx Γ e₂ e₂' .int →
      HasType cx Γ (.binary m op e₁ e₂) (.binary { m with type := .int } op e₁' e₂') .int
  | comparison {Γ m op e₁ e₁' e₂ e₂'} : op.isArithmetic = false → op ≠ .eq →
      HasType cx Γ e₁ e₁' .int → HasType cx Γ e₂ e₂' .int →
      HasType cx Γ (.binary m op e₁ e₂) (.binary { m with type := .bool } op e₁' e₂') .bool
  | equality {Γ m e₁ e₁' t₁ e₂ e₂' t₂} : HasType cx Γ e₁ e₁' t₁ → HasType cx Γ e₂ e₂' t₂ →
      (t₁.isPrimitive = true ∨ t₂.isPrimitive = true → t₁ = t₂) →
      HasType cx Γ (.binary m .eq e₁ e₂) (.binary { m with type := .bool } .eq e₁' e₂') .bool
  | neg {Γ m e e'} : HasType cx Γ e e' .int →
      HasType cx Γ (.unary m .neg e) (.unary { m with type := .int } .neg e') .int
  | comp {Γ m e e'} : HasType cx Γ e e' .bool →
      HasType cx Γ (.unary m .comp e) (.unary { m with type := .bool } .comp e') .bool
  | test {Γ m op e e' t} : op ≠ .neg → op ≠ .comp → HasType cx Γ e e' t →
      HasType cx Γ (.unary m op e) (.unary { m with type := .bool } op e') .bool

/-- The types of the expressions of a list. -/
inductive HasTypes (cx : Context) : Env → List Expr → List Expr → List Name → Prop where
  | nil {Γ} : HasTypes cx Γ [] [] []
  | cons {Γ e e' t es es' ts} : HasType cx Γ e e' t → HasTypes cx Γ es es' ts →
      HasTypes cx Γ (e :: es) (e' :: es') (t :: ts)

/-- The types of the bodies of branches, each under the variable of its branch. -/
inductive HasBranches (cx : Context) : Env → List Branch → List Branch → List Name → Prop where
  | nil {Γ} : HasBranches cx Γ [] [] []
  | cons {Γ span x c e e' t bs bs' ts} : x ≠ .self → c ∈ cx.hierarchy.names →
      HasType cx (Γ.bind x c) e e' t → HasBranches cx Γ bs bs' ts →
      HasBranches cx Γ (.mk span x c e :: bs) (.mk span x c e' :: bs') (t :: ts)

end

/-- A derivation records the type it gives. -/
theorem HasType.type_eq {cx : Context} {Γ : Env} {e e' : Expr} {t : Name}
    (h : HasType cx Γ e e' t) : e'.type = t := by
  cases h <;> rfl

/-- The operands of every operator but equality are integers. -/
theorem HasType.integers {cx : Context} {Γ : Env} {e l' r' : Expr} {m : Mark} {op : BinaryOp}
    {t : Name} (h : HasType cx Γ e (.binary m op l' r') t) (hop : op ≠ .eq) :
    ∃ m l r, e = .binary m op l r ∧ HasType cx Γ l l' .int ∧ HasType cx Γ r r' .int := by
  cases h with
  | arithmetic _ hl hr => exact ⟨_, _, _, rfl, hl, hr⟩
  | comparison _ _ hl hr => exact ⟨_, _, _, rfl, hl, hr⟩
  | equality _ _ _ => exact absurd rfl hop

theorem HasType.operand {cx : Context} {Γ : Env} {e e' : Expr} {m : Mark} {op : UnaryOp} {t : Name}
    (h : HasType cx Γ e (.unary m op e') t) :
    ∃ m e₁ u, e = .unary m op e₁ ∧ HasType cx Γ e₁ e' u := by
  cases h with
  | neg he => exact ⟨_, _, _, rfl, he⟩
  | comp he => exact ⟨_, _, _, rfl, he⟩
  | test _ _ he => exact ⟨_, _, _, rfl, he⟩

theorem HasTypes.exists_hasType {cx : Context} {Γ : Env} {es es' : List Expr} {ts : List Name}
    (h : HasTypes cx Γ es es' ts) {q : Expr} (hq : q ∈ es') : ∃ e t, HasType cx Γ e q t := by
  induction es' generalizing es ts with
  | nil => cases hq
  | cons e' es' ih =>
      cases h with
      | cons he hes =>
          rcases List.mem_cons.mp hq with rfl | hq
          · exact ⟨_, _, he⟩
          · exact ih hes hq

/-! ## Types of expressions -/

/-- Where the rules are used: in an installed class of coherent members. -/
structure Context.Installed (cx : Context) : Prop where
  coherent : cx.members.Coherent
  builtin_mem : ∀ c : Name, c.isBuiltin = true → c ∈ cx.hierarchy.names
  current_mem : cx.current ∈ cx.hierarchy.names

/-- Every variable is of an installed class or of the self type. -/
def Context.Covers (cx : Context) (Γ : Env) : Prop :=
  ∀ x t, Γ x = some t → cx.IsType t

variable {cx : Context}

theorem Context.Covers.bind {Γ : Env} (hΓ : cx.Covers Γ) {x t : Name} (ht : cx.IsType t) :
    cx.Covers (Γ.bind x t) := by
  intro y u hy
  unfold Env.bind at hy
  split at hy
  · exact Option.some.inj hy ▸ ht
  · exact hΓ y u hy

/-- The class of a type that conforms to another is below that of the other. -/
theorem Context.Conforms.inherits (hr : cx.hierarchy.Rooted) {t u : Name}
    (htu : cx.Conforms t u) : cx.hierarchy.Inherits (Members.resolve t cx.current)
      (Members.resolve u cx.current) := by
  have hclass : ∀ {c : Name}, c ∈ cx.hierarchy.names → Members.resolve c cx.current = c :=
    fun hc => if_neg (ne_of_mem_of_not_mem hc hr.selfType_not_mem)
  cases htu with
  | self => exact .refl _
  | ofSelf hd =>
      by_cases hself : u = .selfType
      · rw [hself]
        exact .refl _
      · rwa [Members.resolve, Members.resolve, if_pos rfl, if_neg hself]
  | ofClass hc hd =>
      rw [hclass hc, hclass (hd.mem_names hr hc)]
      exact hd

theorem installed_of_build {p : Program} {ms : Members}
    (hb : Members.build (Hierarchy.build p).1 = .ok (ms, [])) {current : Name}
    (hcur : current ∈ ms.hierarchy.names) : (⟨ms, current⟩ : Context).Installed := by
  have hv := Members.valid_of_build hb
  obtain ⟨hco, hh⟩ := Members.coherent_of_build (Hierarchy.rooted_of_valid hv) hb
  refine ⟨hco, fun c hc => ?_, hcur⟩
  obtain ⟨d, hd, rfl⟩ := Hierarchy.isBuiltin_iff.mp hc
  refine Hierarchy.has_iff.mp ?_
  rw [Context.hierarchy, hh, Hierarchy.has, Hierarchy.entry?_of_mem hv (List.mem_append_left _ hd)]
  rfl

namespace Context.Installed

variable (hcx : cx.Installed)

include hcx

theorem rooted : cx.hierarchy.Rooted :=
  hcx.coherent.rooted

theorem isType_builtin {c : Name} (hc : c.isBuiltin = true) : cx.IsType c :=
  Or.inr (hcx.builtin_mem c hc)

theorem resolve_mem {t : Name} (ht : cx.IsType t) :
    Members.resolve t cx.current ∈ cx.hierarchy.names := by
  unfold Members.resolve
  split
  · exact hcx.current_mem
  · rename_i hself
    exact ht.resolve_left hself

/-- Looking a method up finds what the type offers under its name. -/
theorem method?_eq_some_iff {t x : Name} (ht : cx.IsType t) {m : MethodEntry} :
    cx.method? t x = some m ↔ cx.Offers t m ∧ m.name = x := by
  have hmem := hcx.resolve_mem ht
  unfold Context.method? Members.method? Context.Offers
  rw [hcx.coherent.methods_resolve hmem]
  constructor
  · intro hfind
    exact ⟨List.mem_of_find?_eq_some hfind, by simpa using List.find?_some hfind⟩
  · rintro ⟨hm, rfl⟩
    exact find?_of_nodup_map (hcx.coherent.methods_nodup hmem) hm

theorem seenMethod {t : Name} (ht : cx.IsType t) {m : MethodEntry} (hm : cx.Offers t m) :
    cx.members.SeenMethod (Members.resolve t cx.current) m :=
  hcx.coherent.seenMethod (hcx.resolve_mem ht) m hm

theorem isType_callType {t u : Name} (ht : cx.IsType t) (hu : cx.IsType u) {m : MethodEntry}
    (hm : cx.Offers t m) : cx.IsType (callType m u) := by
  unfold callType
  split
  · exact hu
  · exact (hcx.seenMethod ht hm).result_typed

theorem isType_of_isJoin {ts : List Name} {t : Name} (hj : cx.IsJoin ts t) : cx.IsType t := by
  cases ts with
  | nil => exact (hj.least .object (by simp)).isType_left
  | cons u ts => exact (hj.upper u List.mem_cons_self).isType_right hcx.rooted hcx.current_mem

end Context.Installed

mutual

/-- What has a type has one of an installed class or the self type. -/
theorem HasType.isType (hcx : cx.Installed) : ∀ {Γ : Env} {e e' : Expr} {t : Name},
    HasType cx Γ e e' t → cx.Covers Γ → cx.IsType t
  | _, _, _, _, .object hx, hΓ => hΓ _ _ hx
  | _, _, _, _, .assign _ _ he _, hΓ => he.isType hcx hΓ
  | _, _, _, _, .int, _ => hcx.isType_builtin rfl
  | _, _, _, _, .string, _ => hcx.isType_builtin rfl
  | _, _, _, _, .bool, _ => hcx.isType_builtin rfl
  | _, _, _, _, .new ht, _ => ht
  | _, _, _, _, .dispatch he _ hf _, hΓ =>
      have ht := he.isType hcx hΓ
      hcx.isType_callType ht ht hf
  | _, _, _, _, .staticDispatch he _ hc _ hf _, hΓ =>
      hcx.isType_callType (Or.inr hc) (he.isType hcx hΓ) hf
  | _, _, _, _, .cond _ _ _ hj, _ => hcx.isType_of_isJoin hj
  | _, _, _, _, .loop _ _, _ => hcx.isType_builtin rfl
  | _, _, _, _, .block hes, hΓ => by
      rw [List.getLastD_eq_getLast?]
      cases hl : List.getLast? _ with
      | none => exact hcx.isType_builtin rfl
      | some t => exact hes.isType hcx hΓ t (List.mem_of_getLast? hl)
  | _, _, _, _, .caseOf _ _ _ _ hj, _ => hcx.isType_of_isJoin hj
  | _, _, _, _, .letIn _ ht _ _ hbody, hΓ => hbody.isType hcx (hΓ.bind ht)
  | _, _, _, _, .letDefault _ ht _ hbody, hΓ => hbody.isType hcx (hΓ.bind ht)
  | _, _, _, _, .arithmetic _ _ _, _ => hcx.isType_builtin rfl
  | _, _, _, _, .comparison _ _ _ _, _ => hcx.isType_builtin rfl
  | _, _, _, _, .equality _ _ _, _ => hcx.isType_builtin rfl
  | _, _, _, _, .neg _, _ => hcx.isType_builtin rfl
  | _, _, _, _, .comp _, _ => hcx.isType_builtin rfl
  | _, _, _, _, .test _ _ _, _ => hcx.isType_builtin rfl

theorem HasTypes.isType (hcx : cx.Installed) : ∀ {Γ : Env} {es es' : List Expr} {ts : List Name},
    HasTypes cx Γ es es' ts → cx.Covers Γ → ∀ t ∈ ts, cx.IsType t
  | _, _, _, _, .nil, _ => by simp
  | _, _, _, _, .cons he hes, hΓ =>
      List.forall_mem_cons.mpr ⟨he.isType hcx hΓ, hes.isType hcx hΓ⟩

end

end Typing

end Cool
