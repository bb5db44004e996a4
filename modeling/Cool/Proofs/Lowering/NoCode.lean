import Cool.Proofs.Lowering.Equations
import Cool.Proofs.Lowering.Outcome
import Cool.Proofs.Lowering.Pool
import Cool.Proofs.Lowering.Site
import Cool.Proofs.Typing.Agreement

/-! Which checked expressions have no code. Lowering such an expression faults, and lowering any
other succeeds. -/

namespace Cool.Lowering

open Typing (Env Context Accepts AcceptsAll AcceptsBranches)

/-- The parts of an expression that are lowered with it, each with the locals it sees. -/
def parts (L : Env) : Expr → List (Env × Expr)
  | .block _ body => body.map fun e => (L, e)
  | .assign _ _ value => [(L, value)]
  | .dispatch _ receiver _ args => (L, receiver) :: args.map fun e => (L, e)
  | .staticDispatch _ receiver _ _ args => (L, receiver) :: args.map fun e => (L, e)
  | .cond _ pred onTrue onFalse => [(L, pred), (L, onTrue), (L, onFalse)]
  | .loop _ pred body => [(L, pred), (L, body)]
  | .caseOf _ scrutinee branches =>
    (L, scrutinee) :: branches.map fun b => (L.bind b.name b.type, b.body)
  | .letIn _ x type init body =>
    (if init.isAbsent then [] else [(L, init)]) ++ [(L.bind x type, body)]
  | .binary _ _ left right => [(L, left), (L, right)]
  | .unary _ _ operand => [(L, operand)]
  | _ => []

/-- The expressions of a class that have no code of their own. An absent expression has none, nor
has one with an operator that has no name. A variable, a conditional, a let or a case needs a class
that represents its type, and where a function is lifted from an expression so does every local it
passes on. A call on an ill-typed receiver needs a method that takes as many arguments, since
nothing was checked about it. -/
def IsCulprit (cx : Context) (L : Env) : Expr → Prop
  | .missing | .noExpr _ => True
  | .object _ x => x ≠ .self ∧ ∃ t, L x = some t ∧ NoLayout t
  | .assign _ x _ => ∃ t, L x = some t ∧ NoLayout t
  | .dispatch _ receiver method args => receiver.type = .errType ∧
      ∀ m, cx.method? .errType method = some m → m.params.length < args.length
  | .cond m _ _ _ => NoLayout m.type
  | .caseOf m _ branches => NoLayout m.type ∨ (∃ x t, L x = some t ∧ NoLayout t) ∨
      ∃ b ∈ branches, b.name ≠ .anonymous ∧ NoLayout b.type
  | .letIn m x type _ _ => NoLayout m.type ∨ NoLayout type ∨
      ∃ y t, passed L x type y = some t ∧ NoLayout t
  | .binary _ op _ _ => op.tag? = none
  | .unary _ op _ => op.tag? = none
  | _ => False

/-- An expression with a culprit in it. -/
inductive NoCode (cx : Context) : Env → Expr → Prop where
  | here {L e} : IsCulprit cx L e → NoCode cx L e
  | inside {L e L' e'} : (L', e') ∈ parts L e → NoCode cx L' e' → NoCode cx L e

theorem noCode_iff {cx : Context} {L : Env} {e : Expr} :
    NoCode cx L e ↔ IsCulprit cx L e ∨ ∃ q ∈ parts L e, NoCode cx q.1 q.2 := by
  constructor
  · intro h
    cases h with
    | here hc => exact Or.inl hc
    | inside hmem h => exact Or.inr ⟨_, hmem, h⟩
  · rintro (hc | ⟨q, hmem, h⟩)
    · exact .here hc
    · exact .inside hmem h

section

variable {cx : Context} {L : Env} {m : Mark}

theorem exists_noLayout_passed {x type : Name} (hL : ¬ ∃ y t, L y = some t ∧ NoLayout t) :
    (∃ y t, passed L x type y = some t ∧ NoLayout t) ↔ x ≠ .anonymous ∧ NoLayout type := by
  by_cases hx : x = .anonymous
  · rw [passed, if_pos hx]
    exact iff_of_false hL fun h => h.1 hx
  · rw [passed, if_neg hx, and_iff_right hx]
    constructor
    · rintro ⟨y, t, hy, ht⟩
      unfold Env.bind at hy
      split at hy
      · cases hy
        exact ht
      · exact absurd ⟨y, t, hy, ht⟩ hL
    · exact fun htype => ⟨x, type, by simp [Env.bind], htype⟩

theorem not_noCode_let {x type : Name} {init body : Expr} :
    ¬ NoCode cx L (.letIn m x type init body) ↔
      ¬ NoLayout type ∧ (init.isAbsent = true ∨ ¬ NoCode cx L init) ∧ ¬ NoLayout m.type ∧
        (¬ ∃ y t, passed L x type y = some t ∧ NoLayout t) ∧
        ¬ NoCode cx (L.bind x type) body := by
  have hparts : (∃ q ∈ parts L (.letIn m x type init body), NoCode cx q.1 q.2) ↔
      (init.isAbsent = false ∧ NoCode cx L init) ∨ NoCode cx (L.bind x type) body := by
    cases hinit : init.isAbsent with
    | true => simp [parts, hinit]
    | false => simp [parts, hinit]
  rw [noCode_iff, hparts, ← Bool.not_eq_true]
  simp only [IsCulprit]
  generalize (∃ y t, passed L x type y = some t ∧ NoLayout t) = hidden
  tauto

theorem not_noCode_case {scrutinee : Expr} {branches : List Branch} :
    ¬ NoCode cx L (.caseOf m scrutinee branches) ↔
      ¬ NoCode cx L scrutinee ∧ ¬ NoLayout m.type ∧ (¬ ∃ x t, L x = some t ∧ NoLayout t) ∧
        ∀ b ∈ branches, (¬ ∃ y t, passed L b.name b.type y = some t ∧ NoLayout t) ∧
          ¬ NoCode cx (L.bind b.name b.type) b.body := by
  have hparts : (∃ q ∈ parts L (.caseOf m scrutinee branches), NoCode cx q.1 q.2) ↔
      NoCode cx L scrutinee ∨ ∃ b ∈ branches, NoCode cx (L.bind b.name b.type) b.body := by
    simp [parts]
  rw [noCode_iff, hparts]
  simp only [IsCulprit]
  by_cases hL : ∃ x t, L x = some t ∧ NoLayout t
  · simp only [hL, true_or, or_true, not_true_eq_false, false_and, and_false]
  · simp only [exists_noLayout_passed hL, hL, false_or, not_or, not_exists, not_and,
      not_false_eq_true, true_and]
    constructor
    · rintro ⟨⟨hm, hguards⟩, hs, hbodies⟩
      exact ⟨hs, hm, fun b hb => ⟨hguards b hb, hbodies b hb⟩⟩
    · rintro ⟨hs, hm, hbs⟩
      exact ⟨⟨hm, fun b hb => (hbs b hb).1⟩, hs, fun b hb => (hbs b hb).2⟩

end

theorem noCode_missing (cx : Context) (L : Env) : NoCode cx L .missing :=
  .here trivial

/-- The type recorded for an expression that was checked is the type it was given. -/
theorem accepts_type {cx : Context} {scope : Scope Name Name} {e e' : Expr} {t : Name}
    (h : Accepts cx scope e (e', t)) (he : e' ≠ .missing) : typeOf e' = .ok t := by
  cases h
  case missing => exact absurd rfl he
  all_goals rfl

/-- Lowering that asks for the type of an expression first is settled by what follows, as long as
the expression has code. -/
theorem Settles.typeOf_bind {α : Type} {cx : Context} {scope : Scope Name Name} {e e' : Expr}
    {t : Name} {L : Env} {f : Name → Lower α} {P : Prop} (h : Accepts cx scope e (e', t))
    (hP : P → ¬ NoCode cx L e') (hf : e' ≠ .missing → Settles (f t) P) :
    Settles (liftM (typeOf e') >>= f) P := by
  by_cases he : e' = .missing
  · subst he
    refine (Settles.lift_error_bind rfl f).congr ?_
    exact ⟨False.elim, fun hp => hP hp (noCode_missing cx L)⟩
  · exact .lift_bind (accepts_type h he) (hf he)

namespace Settles

variable {site : Site}

theorem liftBinding {name : String} {x type value : Name} {body : Lower (List Wat.Instr)}
    {P : Prop} (hbody : Settles body P) :
    Settles (site.liftBinding name x type value body)
      ((∀ p ∈ site.localsWith x type, ¬ NoLayout p.type) ∧ P) := by
  unfold Site.liftBinding
  refine ((Settles.lift _).bind fun ps => (hbody.inFrame {}).bind fun r =>
    (Settles.emit _).bind fun _ => .pure _).congr ?_
  rw [Site.exists_typedLocals_iff]
  simp

theorem lowerArms {name : String} {value : Name} {label : String} {i : Nat} {arms : List Arm}
    (harms : ∀ arm ∈ arms, Settles arm.body (Succeeds arm.body)) :
    Settles (site.lowerArms name value label i arms)
      (∀ arm ∈ arms, (∀ p ∈ site.localsWith arm.name arm.guard, ¬ NoLayout p.type) ∧
        Succeeds arm.body) := by
  induction arms generalizing i with
  | nil =>
      rw [Site.lowerArms]
      exact (Settles.pure _).congr (by simp)
  | cons arm arms ih =>
      obtain ⟨harm, hrest⟩ := List.forall_mem_cons.mp harms
      rw [Site.lowerArms]
      refine ((Settles.liftBinding harm).bind fun back => (ih hrest).bind fun r =>
        .pure _).congr ?_
      simp

end Settles

/-! ## Settling an expression -/

/-- A site whose pool holds the values of uninitialized variables. -/
structure Site.Ready (site : Site) (cx : Context) (scope : Scope Name Name) : Prop
    extends site.Matches cx scope.lookup where
  zero : 0 ∈ site.pool.ints
  empty : ∃ g, site.pool.text "" = .ok g

section

variable {cx : Context} {site : Site} {scope : Scope Name Name}

theorem Site.Ready.bind (hr : site.Ready cx scope) {x : Name} (hx : x ≠ .self) (t : Name) :
    (site.bind x t).Ready cx (Context.bind scope x t) :=
  ⟨Typing.lookup_bind hx t ▸ hr.toMatches.bind x t, hr.zero, hr.empty⟩

theorem Site.Ready.exists_defaultValue_iff (hr : site.Ready cx scope) {t : Name} :
    (∃ i, site.defaultValue t = .ok i) ↔ ¬ NoLayout t := by
  constructor
  · rintro ⟨i, hi⟩ ht
    have hlayout : site.layout t = .error (.noLayout t) := by
      rcases ht with rfl | rfl | rfl <;> rfl
    rw [Site.defaultValue, hlayout] at hi
    rcases ht with rfl | rfl | rfl <;> cases hi
  · intro ht
    obtain ⟨g, hg⟩ := hr.empty
    unfold Site.defaultValue
    rw [Pool.int, if_pos hr.zero, hg, layout_of_not ht]
    split
    · exact ⟨_, rfl⟩
    · split
      · exact ⟨_, rfl⟩
      · split
        · exact ⟨_, rfl⟩
        · exact ⟨_, rfl⟩

theorem Site.forall_locals_iff : (∀ p ∈ site.locals, ¬ NoLayout p.type) ↔
    ¬ ∃ x t, site.localTypes x = some t ∧ NoLayout t := by
  constructor
  · rintro hall ⟨x, t, hx, ht⟩
    exact hall ⟨x, t⟩ (Site.mem_locals.mpr hx) ht
  · exact fun hnone p hp ht => hnone ⟨p.name, p.type, Site.mem_locals.mp hp, ht⟩

theorem Site.forall_localsWith_iff {x type : Name} :
    (∀ p ∈ site.localsWith x type, ¬ NoLayout p.type) ↔
      ¬ ∃ y t, passed site.localTypes x type y = some t ∧ NoLayout t := by
  constructor
  · rintro hall ⟨y, t, hy, ht⟩
    exact hall ⟨y, t⟩ (Site.mem_localsWith.mpr hy) ht
  · exact fun hnone p hp ht => hnone ⟨p.name, p.type, Site.mem_localsWith.mp hp, ht⟩

theorem settles_lowerRest {P : Expr → Prop} {es : List Expr}
    (hes : ∀ e ∈ es, Settles (lower site e) (P e)) (before : Code) :
    Settles (lowerRest site before es) (∀ e ∈ es, P e) := by
  induction es generalizing before with
  | nil =>
      rw [lowerRest]
      exact (Settles.pure _).congr (by simp)
  | cons e es ih =>
      obtain ⟨he, hrest⟩ := List.forall_mem_cons.mp hes
      rw [lowerRest]
      exact (he.bind fun code => ih hrest _).congr List.forall_mem_cons.symm

/-- Arguments are lowered as long as there are parameters for them. -/
theorem settles_lowerArgs {P : Expr → Prop} {es : List Expr}
    (hes : ∀ e ∈ es, Settles (lower site e) (P e)) (params : List Parameter) :
    Settles (lowerArgs site params es) (es.length ≤ params.length ∧ ∀ e ∈ es, P e) := by
  induction es generalizing params with
  | nil =>
      rw [lowerArgs]
      exact (Settles.pure _).congr (by simp)
  | cons e es ih =>
      obtain ⟨he, hrest⟩ := List.forall_mem_cons.mp hes
      cases params with
      | nil =>
          rw [lowerArgs]
          exact (Settles.fail _).congr (by simp)
      | cons p params =>
          rw [lowerArgs]
          refine (he.bind fun code => (Settles.freshTemp _).bind fun tmp =>
            (ih hrest params).bind fun r => .pure _).congr ?_
          rw [List.forall_mem_cons, List.length_cons, List.length_cons, Nat.add_le_add_iff_right]
          tauto

theorem Site.Matches.method_of_some (hm : site.Matches cx scope.lookup) {t x : Name}
    {entry : MethodEntry} (hentry : cx.method? t x = some entry) : site.method t x = .ok entry := by
  rw [Context.method?] at hentry
  rw [Site.method, hm.members, hm.current, hentry]

theorem Site.Matches.method_of_none (hm : site.Matches cx scope.lookup) {t x : Name}
    (hnone : cx.method? t x = none) : site.method t x = .error (.noMethod t x) := by
  rw [Context.method?] at hnone
  rw [Site.method, hm.members, hm.current, hnone]

/-- A variable is read unless it is a local of a type that has no class. -/
theorem settles_read (hcx : cx.Installed) (hr : site.Ready cx scope) {x t : Name}
    (hx : scope.lookup x = some t) (m : Mark) :
    Settles (liftM (site.read x) : Lower Code) (¬ IsCulprit cx site.localTypes (.object m x)) := by
  refine (Settles.lift _).congr ?_
  by_cases hself : x = .self
  · subst hself
    exact ⟨fun _ hc => hc.1 rfl, fun _ => ⟨_, Site.read_self⟩⟩
  · obtain ⟨place, hplace⟩ := hr.binding hself hx
    cases place with
    | field =>
        obtain ⟨a, -, -, -, hclass⟩ := hr.attributeClass hcx hplace
        have hlocal : site.localTypes x = none := by rw [Site.localTypes, hplace]
        rw [Site.read_field hself hplace hclass]
        simp [IsCulprit, hlocal]
    | «local» =>
        have hlocal : site.localTypes x = some t := Site.localTypes_eq_some.mpr hplace
        rw [Site.read_local hself hplace]
        have hmap : (∃ code, ((site.layout t).map fun c =>
            (⟨[Wat.getLocal (localId x)], c⟩ : Code)) = .ok code) ↔ ∃ c, site.layout t = .ok c := by
          cases site.layout t <;> simp [Except.map]
        rw [hmap, Site.exists_layout_iff]
        simp [IsCulprit, hlocal, hself]

/-- The value a variable starts with is lowered once its type has a class. -/
theorem settles_initial (hr : site.Ready cx scope) {type : Name} (htype : ¬ NoLayout type)
    {init : Expr} {P : Prop} (hinit : Settles (lower site init) P) (declared : Name) :
    Settles (initial site type declared init) (init.isAbsent = true ∨ P) := by
  unfold initial
  split
  · rename_i habsent
    obtain ⟨i, hi⟩ := hr.exists_defaultValue_iff.mpr htype
    rw [hi]
    exact ((Settles.lift _).map _).congr (by simp [habsent])
  · rename_i hpresent
    exact (hinit.map _).congr (by simp [hpresent])

theorem settles_arms {bs : List Branch} {P : Branch → Prop}
    (hbs : ∀ b ∈ bs, Settles (lower (site.bind b.name b.type) b.body) (P b))
    {name label : String} {value : Name} {i : Nat} :
    Settles (site.lowerArms name value label i
        (armOrder site.members.hierarchy (lowerBranches site value bs)))
      (∀ b ∈ bs, (∀ p ∈ site.localsWith b.name b.type, ¬ NoLayout p.type) ∧ P b) := by
  have hbody : ∀ b ∈ bs, Settles (armOf site value b).body (P b) := fun b hb => (hbs b hb).map _
  have hmem : ∀ arm, arm ∈ armOrder site.members.hierarchy (lowerBranches site value bs) ↔
      ∃ b ∈ bs, armOf site value b = arm := by
    intro arm
    rw [armOrder, mem_deepestFirst, lowerBranches_eq_map, List.mem_map]
  refine (Settles.lowerArms fun arm harm => ?_).congr ⟨?_, ?_⟩
  · obtain ⟨b, hb, rfl⟩ := (hmem arm).mp harm
    exact (hbody b hb).congr (hbody b hb).succeeds_iff.symm
  · intro hall b hb
    obtain ⟨hlocals, hs⟩ := hall _ ((hmem _).mpr ⟨b, hb, rfl⟩)
    exact ⟨hlocals, (hbody b hb).succeeds_iff.mp hs⟩
  · intro hall arm harm
    obtain ⟨b, hb, rfl⟩ := (hmem arm).mp harm
    exact ⟨(hall b hb).1, (hbody b hb).ok (hall b hb).2⟩

/-! ## One construct at a time

Lowering an expression is settled where lowering its parts is. -/

/-- Whether lowering an expression at a site succeeds exactly if there is no culprit in it. -/
def Settled (cx : Context) (site : Site) (e : Expr) : Prop :=
  Settles (lower site e) (¬ NoCode cx site.localTypes e)

namespace Settled

variable {m : Mark}

theorem int {token : String} (hpool : site.pool.Holds (.expr (.int m token))) :
    Settled cx site (.int m token) := by
  obtain ⟨n, hparse, hmem⟩ := hpool
  have hpooled : site.pool.int n = .ok (intGlobal n) := by rw [Pool.int, if_pos hmem]
  rw [Settled, lower, noCode_iff, hparse]
  refine .lift_bind hpooled ((Settles.pure _).congr ?_)
  simp [IsCulprit, parts]

theorem string {value : String} (hpool : site.pool.Holds (.expr (.string m value))) :
    Settled cx site (.string m value) := by
  obtain ⟨g, hg⟩ := hpool
  rw [Settled, lower, noCode_iff]
  refine .lift_bind hg ((Settles.pure _).congr ?_)
  simp [IsCulprit, parts]

theorem block {es : List Expr} (hes : ∀ e ∈ es, Settled cx site e) :
    Settled cx site (.block m es) := by
  rw [Settled, noCode_iff]
  cases es with
  | nil =>
      rw [lower]
      exact (Settles.pure _).congr (by simp [IsCulprit, parts])
  | cons e es =>
      obtain ⟨he, hes⟩ := List.forall_mem_cons.mp hes
      rw [lower]
      refine (Settles.bind he fun first => settles_lowerRest hes first).congr ?_
      simp [IsCulprit, parts]

/-- An assignment to a local needs a class for the type of the local; a field has one. -/
theorem assign (hcx : cx.Installed) (hr : site.Ready cx scope) {x t : Name} {value : Expr}
    (hself : x ≠ .self) (hx : scope.lookup x = some t) (hvalue : Settled cx site value) :
    Settled cx site (.assign m x value) := by
  obtain ⟨place, hplace⟩ := hr.binding hself hx
  rw [Settled, lower, noCode_iff]
  refine .lift_bind (Site.binding_of_lookup hplace) ?_
  cases place with
  | field =>
      obtain ⟨a, -, -, -, hclass⟩ := hr.attributeClass hcx hplace
      have hlocal : site.localTypes x = none := by rw [Site.localTypes, hplace]
      refine (Settles.lift_bind hclass (Settles.bind hvalue fun code =>
        (Settles.freshTemp _).bind fun tmp => .pure _)).congr ?_
      simp [IsCulprit, parts, hlocal]
  | «local» =>
      have hlocal : site.localTypes x = some t := Site.localTypes_eq_some.mpr hplace
      refine ((Settles.lift _).bind fun want => Settles.bind hvalue fun code =>
        (Settles.noteAssigned _).bind fun _ => .pure _).congr ?_
      rw [Site.exists_layout_iff]
      simp [IsCulprit, parts, hlocal]

/-- What is checked about a call is that there are as many parameters as arguments, so no call has
too many, but where the type of the receiver is not known. -/
theorem dispatch (hr : site.Ready cx scope) {e receiver : Expr} {t method : Name}
    {args : List Expr} (h : Accepts cx scope e (receiver, t))
    (hknown : t ≠ .errType → ∃ entry, cx.method? t method = some entry ∧
      args.length ≤ entry.params.length)
    (hreceiver : Settled cx site receiver) (hargs : ∀ e ∈ args, Settled cx site e) :
    Settled cx site (.dispatch m receiver method args) := by
  rw [Settled, lower, noCode_iff]
  refine .typeOf_bind h (L := site.localTypes) (by simp [parts]; tauto) fun hthere => ?_
  have htype := type_of_typeOf (accepts_type h hthere)
  cases hentry : cx.method? t method with
  | none =>
      obtain rfl : t = .errType := by
        by_contra ht
        obtain ⟨entry, hsome, -⟩ := hknown ht
        cases hentry.symm.trans hsome
      refine (Settles.lift_error_bind (hr.method_of_none hentry) _).congr ?_
      simp [IsCulprit, hentry, htype]
  | some entry =>
      have hfits : args.length ≤ entry.params.length ↔
          ¬ IsCulprit cx site.localTypes (.dispatch m receiver method args) := by
        simp only [IsCulprit, htype]
        by_cases ht : t = .errType
        · subst ht
          simp [hentry]
        · obtain ⟨entry', hsome, hlen⟩ := hknown ht
          cases hentry.symm.trans hsome
          simp [ht, hlen]
      refine (Settles.lift_bind (hr.method_of_some hentry)
        ((settles_lowerArgs hargs entry.params).bind fun r => Settles.bind hreceiver fun code =>
          .pure _)).congr ?_
      rw [hfits]
      simp [parts]
      tauto

theorem staticDispatch (hr : site.Ready cx scope) {receiver : Expr} {target method : Name}
    {args : List Expr} {entry : MethodEntry} (hentry : cx.method? target method = some entry)
    (hlen : args.length ≤ entry.params.length) (hreceiver : Settled cx site receiver)
    (hargs : ∀ e ∈ args, Settled cx site e) :
    Settled cx site (.staticDispatch m receiver target method args) := by
  rw [Settled, lower, noCode_iff]
  refine (Settles.lift_bind (hr.method_of_some hentry)
    ((settles_lowerArgs hargs entry.params).bind fun r => Settles.bind hreceiver fun code =>
      .pure _)).congr ?_
  simp [IsCulprit, parts, hlen]
  tauto

theorem cond {pred onTrue onFalse : Expr} (hpred : Settled cx site pred)
    (htrue : Settled cx site onTrue) (hfalse : Settled cx site onFalse) :
    Settled cx site (.cond m pred onTrue onFalse) := by
  rw [Settled, lower, noCode_iff]
  refine ((Settles.lift _).bind fun want => Settles.bind hpred fun test =>
    Settles.bind htrue fun yes => Settles.bind hfalse fun no => .pure _).congr ?_
  rw [Site.exists_layout_iff]
  simp [IsCulprit, parts]

theorem loop {pred body : Expr} (hpred : Settled cx site pred) (hbody : Settled cx site body) :
    Settled cx site (.loop m pred body) := by
  rw [Settled, lower, noCode_iff]
  refine ((Settles.freshLabel _).bind fun leave => (Settles.freshLabel _).bind fun next =>
    Settles.bind hpred fun test => Settles.bind hbody fun code => .pure _).congr ?_
  simp [IsCulprit, parts]

/-- Equality asks for the type of its left operand. -/
theorem binary {e left right : Expr} {t : Name} {op : BinaryOp}
    (h : Accepts cx scope e (left, t)) (hleft : Settled cx site left)
    (hright : Settled cx site right) : Settled cx site (.binary m op left right) := by
  rw [Settled, noCode_iff]
  cases op with
  | eq =>
      rw [lower_equality]
      refine .typeOf_bind h (L := site.localTypes) (by simp [parts]; tauto) fun _ =>
        (Settles.bind hleft fun l => Settles.bind hright fun r => .pure _).congr ?_
      simp [IsCulprit, parts, BinaryOp.tag?]
  | unknown i =>
      rw [lower]
      · exact (Settles.fail _).congr (by simp [IsCulprit, BinaryOp.tag?])
  | _ =>
      rw [lower_integer rfl]
      refine (Settles.bind hleft fun l => Settles.bind hright fun r => .pure _).congr ?_
      simp [IsCulprit, parts, BinaryOp.tag?]

theorem unary {operand : Expr} {op : UnaryOp} (hoperand : Settled cx site operand) :
    Settled cx site (.unary m op operand) := by
  rw [Settled, noCode_iff]
  cases op with
  | unknown i =>
      rw [lower]
      exact (Settles.fail _).congr (by simp [IsCulprit, UnaryOp.tag?])
  | _ =>
      rw [lower]
      refine (Settles.bind hoperand fun code => .pure _).congr ?_
      simp [IsCulprit, parts, UnaryOp.tag?]

theorem letIn (hr : site.Ready cx scope) {x type : Name} {init body : Expr}
    (hinit : Settled cx site init) (hbody : Settled cx (site.bind x type) body) :
    Settled cx site (.letIn m x type init body) := by
  rw [Settled, Site.localTypes_bind] at hbody
  rw [Settled, lower_let, not_noCode_let]
  refine (((Settles.lift _).congr Site.exists_layout_iff).bind_of fun hlaid declared =>
    (settles_initial hr hlaid hinit declared).bind fun first =>
    (Settles.freshTemp _).bind fun tmp => (Settles.liftedName _ _).bind fun name =>
    ((Settles.lift _).congr Site.exists_layout_iff).bind fun value =>
    (Settles.liftBinding (hbody.map _)).bind fun back =>
    (Settles.noteAssigned _).bind fun _ => .pure _).congr ?_
  rw [Site.forall_localsWith_iff]
  simp only [true_and, and_true]

theorem caseOf {scrutinee : Expr} {branches : List Branch} (hscrutinee : Settled cx site scrutinee)
    (hbranches : ∀ b ∈ branches, Settled cx (site.bind b.name b.type) b.body) :
    Settled cx site (.caseOf m scrutinee branches) := by
  have hbs : ∀ b ∈ branches, Settles (lower (site.bind b.name b.type) b.body)
      (¬ NoCode cx (site.localTypes.bind b.name b.type) b.body) := fun b hb => by
    have hb := hbranches b hb
    rwa [Settled, Site.localTypes_bind] at hb
  rw [Settled, lower, not_noCode_case]
  refine (Settles.bind hscrutinee fun code => (Settles.freshTemp _).bind fun tmp =>
    ((Settles.lift _).congr Site.exists_layout_iff).bind fun value =>
    (Settles.liftedName _ _).bind fun name =>
    ((Settles.lift _).congr Site.exists_typedLocals_iff).bind fun ps =>
    (settles_arms hbs).bind fun r => (Settles.emit _).bind fun _ =>
    (Settles.noteAssigned _).bind fun _ => .pure _).congr ?_
  simp only [Site.forall_locals_iff, Site.forall_localsWith_iff, true_and, and_true]

end Settled

/-! ## All constructs -/

mutual

/-- Lowering an expression that was checked succeeds exactly if there is no culprit in it. -/
theorem settles_lower (hcx : cx.Installed) : ∀ (e : Expr) {scope : Scope Name Name} {e' : Expr}
    {t : Name} {site : Site}, Accepts cx scope e (e', t) → site.Ready cx scope →
    (∀ n ∈ e'.nodes, site.pool.Holds n) → Settled cx site e'
  | .missing, _, _, _, _, h, _, _ | .noExpr _, _, _, _, _, h, _, _ => by
      cases h
      rw [Settled, lower, noCode_iff]
      exact (Settles.fail _).congr (by simp [IsCulprit])
  | .int _ _, _, _, _, _, h, _, hn => by
      cases h
      exact .int (List.forall_mem_singleton.mp hn)
  | .string _ _, _, _, _, _, h, _, hn => by
      cases h
      exact .string (List.forall_mem_singleton.mp hn)
  | .bool _ _, _, _, _, _, h, _, _ | .new _ _, _, _, _, _, h, _, _ => by
      cases h
      rw [Settled, lower, noCode_iff]
      exact (Settles.pure _).congr (by simp [IsCulprit, parts])
  | .object m _, _, _, _, _, h, hr, _ => by
      cases h with
      | object hx =>
          rw [Settled, lower, noCode_iff]
          exact (settles_read hcx hr hx m).congr (by simp [IsCulprit, parts])
  | .block _ body, _, _, _, _, h, hr, hn => by
      cases h with
      | block hbody =>
          rw [Expr.nodes, List.forall_mem_cons] at hn
          exact .block (settles_lowerAll hcx body hbody hr hn.2)
  | .assign _ _ value, _, _, _, _, h, hr, hn => by
      cases h with
      | assign hvalue hself hx _ =>
          rw [Expr.nodes, List.forall_mem_cons] at hn
          exact .assign hcx hr hself hx (settles_lower hcx value hvalue hr hn.2)
  | .dispatch _ receiver _ args, _, _, _, _, h, hr, hn => by
      cases h with
      | dispatchIllTyped hreceiver hargs =>
          rw [Expr.nodes, List.forall_mem_cons, List.forall_mem_append] at hn
          exact .dispatch hr hreceiver (fun ht => absurd rfl ht)
            (settles_lower hcx receiver hreceiver hr hn.2.1)
            (settles_lowerAll hcx args hargs hr hn.2.2)
      | @dispatch _ _ _ _ _ _ _ rs entry hreceiver hargs _ hentry hconf =>
          rw [Expr.nodes, List.forall_mem_cons, List.forall_mem_append] at hn
          have hlen : (rs.map (·.1)).length ≤ entry.params.length := by
            rw [List.length_map]
            exact Nat.le_of_eq hconf.length_eq.symm
          exact .dispatch hr hreceiver (fun _ => ⟨entry, hentry, hlen⟩)
            (settles_lower hcx receiver hreceiver hr hn.2.1)
            (settles_lowerAll hcx args hargs hr hn.2.2)
  | .staticDispatch _ receiver _ _ args, _, _, _, _, h, hr, hn => by
      cases h with
      | @staticDispatch _ _ _ _ _ _ _ _ rs entry hreceiver hargs _ _ _ hentry hconf =>
          rw [Expr.nodes, List.forall_mem_cons, List.forall_mem_append] at hn
          have hlen : (rs.map (·.1)).length ≤ entry.params.length := by
            rw [List.length_map]
            exact Nat.le_of_eq hconf.length_eq.symm
          exact .staticDispatch hr hentry hlen (settles_lower hcx receiver hreceiver hr hn.2.1)
            (settles_lowerAll hcx args hargs hr hn.2.2)
  | .cond _ pred onTrue onFalse, _, _, _, _, h, hr, hn => by
      cases h with
      | cond hpred _ htrue hfalse =>
          rw [Expr.nodes, List.forall_mem_cons, List.forall_mem_append,
            List.forall_mem_append] at hn
          exact .cond (settles_lower hcx pred hpred hr hn.2.1.1)
            (settles_lower hcx onTrue htrue hr hn.2.1.2)
            (settles_lower hcx onFalse hfalse hr hn.2.2)
  | .loop _ pred body, _, _, _, _, h, hr, hn => by
      cases h with
      | loop hpred _ hbody =>
          rw [Expr.nodes, List.forall_mem_cons, List.forall_mem_append] at hn
          exact .loop (settles_lower hcx pred hpred hr hn.2.1)
            (settles_lower hcx body hbody hr hn.2.2)
  | .binary _ _ left right, _, _, _, _, h, hr, hn => by
      cases h with
      | binary hleft hright _ =>
          rw [Expr.nodes, List.forall_mem_cons, List.forall_mem_append] at hn
          exact .binary hleft (settles_lower hcx left hleft hr hn.2.1)
            (settles_lower hcx right hright hr hn.2.2)
  | .unary _ _ operand, _, _, _, _, h, hr, hn => by
      cases h with
      | unary hoperand _ =>
          rw [Expr.nodes, List.forall_mem_cons] at hn
          exact .unary (settles_lower hcx operand hoperand hr hn.2)
  | .letIn _ _ type init body, _, _, _, _, h, hr, hn => by
      cases h with
      | letIn hinit hfit hbody =>
          rw [Expr.nodes, List.forall_mem_cons, List.forall_mem_append] at hn
          exact .letIn hr (settles_lower hcx init hinit hr hn.2.1)
            (settles_lower hcx body hbody (hr.bind hfit.2.2 type) hn.2.2)
  | .caseOf _ scrutinee branches, _, _, _, _, h, hr, hn => by
      cases h with
      | caseOf hscrutinee hbranches =>
          rw [Expr.nodes, List.forall_mem_cons, List.forall_mem_append] at hn
          exact .caseOf (settles_lower hcx scrutinee hscrutinee hr hn.2.1)
            (settles_branches hcx branches hbranches hr hn.2.2)
termination_by structural e => e

theorem settles_lowerAll (hcx : cx.Installed) : ∀ (es : List Expr) {scope : Scope Name Name}
    {rs : List (Expr × Name)} {site : Site}, AcceptsAll cx scope es rs → site.Ready cx scope →
    (∀ n ∈ Expr.nodesAll (rs.map (·.1)), site.pool.Holds n) →
    ∀ e' ∈ rs.map (·.1), Settled cx site e'
  | [], _, _, _, h, _, _ => by
      cases h
      simp
  | e :: es, _, _, _, h, hr, hn => by
      cases h with
      | cons h₁ h₂ =>
          rw [List.map_cons, Expr.nodesAll, List.forall_mem_append] at hn
          rw [List.map_cons, List.forall_mem_cons]
          exact ⟨settles_lower hcx e h₁ hr hn.1, settles_lowerAll hcx es h₂ hr hn.2⟩
termination_by structural es => es

theorem settles_branches (hcx : cx.Installed) : ∀ (bs : List Branch) {scope : Scope Name Name}
    {guards : List Name} {before : Option Name} {bs' : List Branch} {u : Option Name}
    {site : Site}, AcceptsBranches cx scope guards before bs (bs', u) → site.Ready cx scope →
    (∀ n ∈ Branch.nodesAll bs', site.pool.Holds n) →
    ∀ b ∈ bs', Settled cx (site.bind b.name b.type) b.body
  | [], _, _, _, _, _, _, h, _, _ => by
      cases h
      simp
  | .mk _ _ guard body :: bs, _, _, _, _, _, _, h, hr, hn => by
      cases h with
      | cons _ hfit hbody hrest =>
          rw [Branch.nodesAll, List.forall_mem_cons, List.forall_mem_append] at hn
          rw [List.forall_mem_cons]
          exact ⟨settles_lower hcx body hbody (hr.bind hfit.2.2 guard) hn.2.1,
            settles_branches hcx bs hrest hr hn.2.2⟩
termination_by structural bs => bs

end

end

end Cool.Lowering
