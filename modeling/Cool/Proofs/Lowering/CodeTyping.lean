import Cool.Proofs.Lowering.Pieces

/-! The code of a checked expression leaves a value of the class it names, and the functions lifted
from the expression are valid. Each form of expressions has a lemma that takes this for granted of
its parts. -/

namespace Cool.Lowering

open Wat Typing

/-- The code of an expression is well typed wherever the expression was checked. -/
def CodeTyped (cx : Context) (e' : Expr) : Prop :=
  ∀ ⦃site : Site⦄ ⦃L : Env⦄ ⦃Γ : CodeContext⦄ ⦃e : Expr⦄ ⦃t : Name⦄ ⦃s s' : Progress⦄
    ⦃code : Code⦄, Lowers site e' s code s' → HasType cx L e e' t →
    (∀ n ∈ e.nodes, n.isNamed = true) → site.Fits cx L Γ → Declared Γ s' →
    code.Typed cx Γ ∧ AddsTyped cx Γ.module s s'

/-! ## Lists of expressions -/

section

variable {cx : Context} {site : Site} {L : Env} {Γ : CodeContext} {s s' : Progress}

theorem LowersRest.typed {before code : Code} {es es' : List Expr} {ts : List Name}
    (hes : ∀ e ∈ es', CodeTyped cx e) (hlower : LowersRest site before es' s code s')
    (htypes : HasTypes cx L es es' ts) (hn : ∀ n ∈ Expr.nodesAll es, n.isNamed = true)
    (hfits : site.Fits cx L Γ) (hd : Declared Γ s') (hbefore : before.Typed cx Γ) :
    code.Typed cx Γ ∧ AddsTyped cx Γ.module s s' := by
  induction es' generalizing before es ts s with
  | nil =>
      cases hlower
      exact ⟨hbefore, .refl _⟩
  | cons e es' ih =>
      obtain ⟨he, hes⟩ := List.forall_mem_cons.mp hes
      cases hlower with
      | cons hfirst hrest =>
          cases htypes with
          | cons htype htypes =>
              rw [Expr.nodesAll, List.forall_mem_append] at hn
              obtain ⟨hcode, hadds⟩ := he hfirst htype hn.1 hfits (hd.before hrest.grown)
              obtain ⟨hresult, hadds'⟩ := ih hes hrest htypes hn.2 ⟨hcode.mem,
                hbefore.runs.append ((CodeContext.Runs.op .drop (.refl _)).cons hcode.runs)⟩
              exact ⟨hresult, hadds.trans hadds'⟩

theorem LowersArgs.typed (hcx : cx.Proper) {ps : List Parameter} {es es' : List Expr}
    {ts : List Name} {instrs : List Instr} {temps : List String}
    (hes : ∀ e ∈ es', CodeTyped cx e) (hlower : LowersArgs site ps es' s instrs temps s')
    (htypes : HasTypes cx L es es' ts) (hlen : ps.length = ts.length)
    (hps : ∀ p ∈ ps, p.type ∈ cx.hierarchy.names)
    (hn : ∀ n ∈ Expr.nodesAll es, n.isNamed = true) (hfits : site.Fits cx L Γ)
    (hd : Declared Γ s') :
    Γ.Runs instrs [] [] ∧
      List.Forall₂ (fun x p => (x, valueType p.type) ∈ Γ.locals) temps ps ∧
      AddsTyped cx Γ.module s s' := by
  induction es' generalizing ps es ts instrs temps s with
  | nil =>
      cases hlower
      cases htypes
      rw [List.eq_nil_of_length_eq_zero hlen]
      exact ⟨.nil [], .nil, .refl _⟩
  | cons e es' ih =>
      obtain ⟨he, hes⟩ := List.forall_mem_cons.mp hes
      cases hlower with
      | cons hfirst hrest =>
          cases htypes with
          | cons htype htypes =>
              obtain ⟨hp, hps⟩ := List.forall_mem_cons.mp hps
              rw [Expr.nodesAll, List.forall_mem_append] at hn
              have hd' := hd.before hrest.grown
              obtain ⟨hcode, hadds⟩ := he hfirst htype hn.1 hfits hd'.beforeTemp
              obtain ⟨hinstrs, htemps, hadds'⟩ :=
                ih hes hrest htypes (Nat.succ.inj hlen) hps hn.2
              refine ⟨?_, .cons hd'.temp htemps,
                hadds.trans ((AddsTyped.withTemp _ hp).trans hadds')⟩
              exact (hfits.coerced hcx hcode hp).append
                ((CodeContext.Runs.op (.localSet hd'.temp) (.refl _)).cons hinstrs)

end

/-! ## Lifted functions -/

section

variable {cx : Context} (hcx : cx.Proper) {site : Site} {L : Env} {Γ : CodeContext}
variable {s s' : Progress}

include hcx

theorem LowersInitial.typed {type declared : Name} {e init : Expr} {instrs : List Instr}
    (hcode : CodeTyped cx init) (hlower : LowersInitial site type declared init s instrs s')
    (hinit : init.isAbsent = true ∨ ∃ t, HasType cx L e init t ∧ cx.Conforms t type)
    (hn : ∀ n ∈ e.nodes, n.isNamed = true) (htype : cx.IsType type)
    (hdeclared : declared = Members.resolve type cx.current) (hfits : site.Fits cx L Γ)
    (hd : Declared Γ s') :
    Γ.Runs instrs [] [valueType declared] ∧ AddsTyped cx Γ.module s s' := by
  cases hlower with
  | default _ hi =>
      rw [hdeclared]
      exact ⟨hfits.toMatches.runs_default hcx hfits.provides htype hi, .refl _⟩
  | value hpresent hlower =>
      rcases hinit with habsent | ⟨t, h, -⟩
      · rw [habsent] at hpresent
        cases hpresent
      · obtain ⟨htyped, hadds⟩ := hcode hlower h hn hfits hd
        exact ⟨hfits.coerced hcx htyped (hdeclared ▸ hcx.resolve_mem htype), hadds⟩

omit hcx in
/-- The scratch locals of a function that starts with none. -/
theorem temps_slots {m : Module} {s₁ : Progress} (hgrown : Grown site (s.inFrame {}) s₁)
    (hadds : AddsTyped cx m (s.inFrame {}) s₁) :
    (s₁.frame.locals.map (·.1)).Nodup ∧
      ∀ l ∈ s₁.frame.locals, IsSharp l.1 ∧ IsObjectSlot cx l := by
  obtain ⟨ts, -, hlocals⟩ := hgrown.frame.locals
  have htemps : s₁.frame.locals = tempsFrom 0 ts := hlocals
  refine ⟨htemps ▸ tempsFrom_nodup 0 ts, fun l hl => ⟨?_, ?_⟩⟩
  · exact isSharp_tempsFrom 0 ts l.1 (List.mem_map_of_mem (htemps ▸ hl))
  · rcases hadds.locals l hl with hnone | hslot
    · cases hnone
    · exact hslot

theorem Lifts.typed {name : String} {x type value t : Name} {e body : Expr}
    {back : List (Name × ValType)} (hcode : CodeTyped cx body)
    (hlift : Lifts site name x type value body s back s')
    (htyped : HasType cx (L.bind x type) e body t) (hn : ∀ n ∈ e.nodes, n.isNamed = true)
    (hx : x.isIdentifier = true) (hself : x ≠ .self) (htype : cx.IsType type)
    (hvalue : value ∈ cx.hierarchy.names) (hfits : site.Fits cx L Γ)
    (hfuncs : ∀ f ∈ s'.funcs, f ∈ Γ.module.funcs) :
    site.Lifted cx Γ.module name x type value back ∧ AddsTyped cx Γ.module s s' := by
  cases hlift with
  | @mk _ _ _ _ _ _ _ _ code _ s₁ hps hbody hback =>
      obtain ⟨rfl, -⟩ := Site.typedLocals_eq_ok hps
      have hinner := hfits.lift hx hself htype s₁.frame.locals
      have hkept := fun f hf => hfuncs f (List.mem_append_left _ hf)
      obtain ⟨hleaves, hadds⟩ := hcode hbody htyped hn hinner
        ⟨fun l hl => List.mem_append_right _ hl, hkept⟩
      obtain ⟨hnodup, hslots⟩ := temps_slots hbody.grown hadds
      have hnew := hfuncs _ (List.mem_append_right _ (List.mem_singleton_self _))
      have hback : ∀ q ∈ back, ∃ p ∈ site.localsWith x type, p.name ≠ x ∧
          q = Site.typedLocal cx.current p := by
        intro q hq
        obtain ⟨hmem, hne⟩ := mem_handedBack (hback ▸ hq)
        obtain ⟨p, hp, rfl⟩ := List.mem_map.mp hmem
        exact ⟨p, hp, hne, by rw [hfits.current]⟩
      rw [hfits.current, liftedParams_typedLocal] at hnew ⊢
      refine ⟨⟨.inl ⟨_, hnew, rfl, rfl, rfl⟩, ?_⟩, ?_⟩
      · intro q hq
        obtain ⟨p, hp, hne, rfl⟩ := hback q hq
        rcases mem_locals_of_localsWith hx hp with ⟨heq, -⟩ | ⟨-, hp⟩
        · exact absurd heq hne
        · exact ⟨p, hp, rfl⟩
      · have hvalid : (liftedFunc name
            ((selfLocal, valueType cx.current) :: ([] ++ slots cx.current (site.localsWith x type)))
            (valueType value) back s₁.frame.locals
            ((site.bind x type).coerced value code)).Valid Γ.module := by
          refine @liftedFunc_valid cx _ site.pool _ [] _ hcx hfits.provides
            (Site.localsWith_nodup x type) (hfits.localsWith_named hx hself)
            (hfits.localsWith_typed hx htype) hnodup hslots name value hvalue back
            (fun q hq => ?_) _ (hinner.coerced hcx hleaves hvalue [])
          obtain ⟨p, hp, -, rfl⟩ := hback q hq
          exact List.mem_map_of_mem hp
        have hframe : AddsTyped cx Γ.module s (s₁.inFrame s.frame) :=
          ⟨hadds.funcs, fun _ hl => .inl hl⟩
        exact hframe.trans (.emitting _ hvalid)

/-- A branch as it was checked. -/
structure BranchTyped (cx : Context) (L : Env) (b : Branch) : Prop where
  named : b.name.isIdentifier = true
  not_self : b.name ≠ .self
  guard_mem : b.type ∈ cx.hierarchy.names
  body : ∃ e t, HasType cx (L.bind b.name b.type) e b.body t ∧ ∀ n ∈ e.nodes, n.isNamed = true

omit hcx in
theorem branchTyped_of_mem {bs bs' : List Branch} {ts : List Name}
    (h : HasBranches cx L bs bs' ts) (hn : ∀ n ∈ Branch.nodesAll bs, n.isNamed = true) :
    ∀ b ∈ bs', BranchTyped cx L b := by
  induction bs generalizing bs' ts with
  | nil =>
      cases h
      nofun
  | cons b bs ih =>
      cases h with
      | cons hself hguard hbody hrest =>
          rw [Branch.nodesAll, List.forall_mem_cons, List.forall_mem_append] at hn
          exact List.forall_mem_cons.mpr
            ⟨⟨hn.1, hself, hguard, _, _, hbody, hn.2.1⟩, ih hrest hn.2.2⟩

/-- The test of a branch leaves to the label of its case with the value of the branch. -/
theorem armTest_typed {branch : String} {b : Branch} {value : Name}
    {back : List (Name × ValType)} (hb : BranchTyped cx L b) (hfits : site.Fits cx L Γ)
    (hscrutinee : (scrutineeLocal, valueType .object) ∈ Γ.locals)
    (hlifted : site.Lifted cx Γ.module branch b.name b.type value back) (labels : Labels) :
    Types Γ ((matchedLabel, [valueType value]) :: labels)
      (armTest site matchedLabel branch b back) [] [] := by
  have hguard : Subtype Γ.module (objectType b.type) (valueType .object) :=
    hfits.provides.subtype_object hcx.rooted false hb.guard_mem
  have hdefined := hfits.provides.defines hb.guard_mem
  have htest : Γ.Runs [.plain (.refTest (objectType b.type)) [getLocal scrutineeLocal]] []
      ([] ++ [.i32]) := .folded (.getLocal hscrutinee) (.refTest hdefined hguard) (.refl _)
  have hbound : Γ.Runs [.plain (.refCast (objectType b.type)) [getLocal scrutineeLocal]] []
      [valueType (Members.resolve b.type cx.current)] := by
    rw [Members.resolve, if_neg (hcx.coherent.ne_selfType hb.guard_mem)]
    exact (CodeContext.Runs.folded (.getLocal hscrutinee) (.refCast hdefined hguard)
      (.refl _)).subsume (.singleton (Provides.subtype_nullable b.type))
  have hbr : Types Γ ((matchedLabel, [valueType value]) :: labels)
      (.plain (.br matchedLabel) []) ([] ++ [valueType value]) [] :=
    .leaves (.nil (.refl _)) (.br List.lookup_cons_self) (.refl _)
  exact .whenTrue (htest _) ((((hfits.runs_liftedArgs hb.named hbound).append
    (hfits.runs_callLifted hlifted)) _).append (.cons hbr (.nil .nil)))

theorem LowersArms.typed {name : String} {value : Name} {i k : Nat} {bs : List Branch}
    {tests : List Instr} {assigned : List Name} (hbs : ∀ b ∈ bs, CodeTyped cx b.body)
    (hlower : LowersArms site name value i bs s tests assigned s')
    (htyped : ∀ b ∈ bs, BranchTyped cx L b) (hvalue : value ∈ cx.hierarchy.names)
    (hname : name = liftedId site.current "case" k)
    (hfits : site.Fits cx L Γ) (hscrutinee : (scrutineeLocal, valueType .object) ∈ Γ.locals)
    (hfuncs : ∀ f ∈ s'.funcs, f ∈ Γ.module.funcs) :
    (∀ labels, TypesAll Γ ((matchedLabel, [valueType value]) :: labels) tests [] []) ∧
      AddsTyped cx Γ.module s s' := by
  induction bs generalizing i s tests assigned with
  | nil =>
      cases hlower
      exact ⟨fun _ => .nil .nil, .refl _⟩
  | cons b bs ih =>
      obtain ⟨hcode, hbs⟩ := List.forall_mem_cons.mp hbs
      obtain ⟨hb, htyped⟩ := List.forall_mem_cons.mp htyped
      cases hlower with
      | cons hlift hrest =>
          obtain ⟨-, hgrow⟩ := hrest.grown hname
          obtain ⟨e, t, hbody, hn⟩ := hb.body
          obtain ⟨hlifted, hadds⟩ := hlift.typed hcx hcode hbody hn hb.named hb.not_self
            (.inr hb.guard_mem) hvalue hfits fun f hf => hfuncs f (hgrow.mem_funcs hf)
          obtain ⟨htests, hadds'⟩ := ih hbs hrest htyped
          refine ⟨fun labels => .cons ?_ (htests labels), hadds.trans hadds'⟩
          exact armTest_typed hcx hb hfits hscrutinee hlifted labels

end

/-- The locals of the function that selects a branch. -/
def selectSlots (cx : Context) (site : Site) : List (String × ValType) :=
  (selfLocal, valueType cx.current) ::
    ([(scrutineeLocal, valueType .object)] ++ slots cx.current site.locals) ++ []

section

variable {cx : Context} {site : Site} {L : Env} {Γ : CodeContext} {name : String} {value : Name}
variable {back : List (Name × ValType)} {tests : List Instr}

theorem selectFunc_valid (name : String) (hcx : cx.Proper) (hfits : site.Fits cx L Γ)
    (hvalue : value ∈ cx.hierarchy.names)
    (hback : ∀ q ∈ back, q ∈ site.locals.map (Site.typedLocal cx.current))
    (htests : ∀ labels, TypesAll ⟨Γ.module, selectSlots cx site⟩
      ((matchedLabel, [valueType value]) :: labels) tests [] []) :
    (selectFunc site name value (site.locals.map (Site.typedLocal cx.current)) back
      tests).Valid Γ.module := by
  have hobject := hcx.builtin_mem .object rfl
  have hthrow : Types ⟨Γ.module, selectSlots cx site⟩ [(matchedLabel, [valueType value])]
      (.plain (.throw abortTag) [const abortNoBranch]) [] [valueType value] :=
    .leaves (CodeContext.Runs.push (.const _) [] _) (.throw hfits.provides.tag) (.refl _)
  have hbody : TypesAll ⟨Γ.module, selectSlots cx site⟩ []
      [.block matchedLabel [valueType value]
        (tests ++ [.plain (.throw abortTag) [const abortNoBranch]])] [] [valueType value] := by
    refine .cons (.block ?_ ((htests []).append (.cons hthrow (.nil (.refl _))))) (.nil (.refl _))
    intro t ht
    rw [List.mem_singleton.mp ht]
    exact hfits.provides.defines hvalue
  rw [selectFunc, hfits.current, liftedParams_typedLocal]
  refine @liftedFunc_valid cx _ site.pool _ [(scrutineeLocal, valueType .object)] [] hcx
    hfits.provides site.locals_nodup hfits.named (fun p hp => hfits.local_typed hp)
    (List.nodup_singleton _) ?_ name value hvalue back (fun q hq => ?_) _ hbody
  · intro l hl
    rw [List.mem_singleton.mp hl]
    exact ⟨by unfold IsSharp; decide, _, hobject, rfl⟩
  · obtain ⟨p, hp, rfl⟩ := List.mem_map.mp (hback q hq)
    exact List.mem_map_of_mem hp

/-- The call of the function that selects a branch, on a value that is on the stack. -/
theorem runs_select (hfits : site.Fits cx L Γ) {tmp : String}
    (htmp : (tmp, valueType .object) ∈ Γ.locals)
    (hback : ∀ q ∈ back, q ∈ site.locals.map (Site.typedLocal cx.current))
    (hselect : selectFunc site name value (site.locals.map (Site.typedLocal cx.current)) back
      tests ∈ Γ.module.funcs) :
    Γ.Runs ([.plain (.localSet tmp) [], getLocal selfLocal, getLocal tmp] ++
        (site.locals.map (Site.typedLocal cx.current)).map (fun p => getLocal (localId p.1)) ++
        callLifted name back)
      [valueType .object] [valueType value] := by
  have hslot : ∀ q ∈ site.locals.map (Site.typedLocal cx.current),
      (localId q.1, q.2) ∈ Γ.locals := by
    intro q hq
    obtain ⟨p, hp, rfl⟩ := List.mem_map.mp hq
    exact hfits.locals _ (List.mem_map_of_mem hp)
  have hgets : Γ.Runs [.plain (.localSet tmp) [], getLocal selfLocal, getLocal tmp]
      [valueType .object] [valueType cx.current, valueType .object] :=
    .cons (.op (.localSet htmp) (.refl _)) (.cons (.getLocal hfits.self)
      ((CodeContext.Runs.getLocal htmp).push _))
  have hargs : Γ.Runs ((site.locals.map (Site.typedLocal cx.current)).map
      fun p => getLocal (localId p.1)) [] ((site.locals.map (Site.typedLocal cx.current)).map (·.2)) :=
    .pushes_map fun q hq => .getLocal (hslot q hq)
  refine (hgets.append (hargs.push _)).append (runs_callLifted (.inl ⟨_, hselect, rfl, ?_, rfl⟩)
    fun q hq => hslot q (hback q hq))
  rw [selectFunc, hfits.current, liftedParams_typedLocal]
  simp [liftedFunc, slots, Site.typedLocal]

end

/-! ## Forms of expressions -/

namespace CodeTyped

variable {cx : Context} (hcx : cx.Proper) (hprim : cx.current.isPrimitive = false)

section

include hcx

theorem int (m : Mark) (token : String) : CodeTyped cx (.int m token) := by
  intro site L Γ e t s s' code hlower _ _ hfits _
  cases hlower with
  | int hn hg =>
      refine ⟨⟨hcx.builtin_mem _ rfl, ?_⟩, .refl _⟩
      exact Provides.runs_global (hfits.provides.hasGlobal_int hg)

theorem string (m : Mark) (value : String) : CodeTyped cx (.string m value) := by
  intro site L Γ e t s s' code hlower _ _ hfits _
  cases hlower with
  | string hg =>
      refine ⟨⟨hcx.builtin_mem _ rfl, ?_⟩, .refl _⟩
      exact Provides.runs_global (hfits.provides.hasGlobal_text hg)

theorem bool (m : Mark) (value : Bool) : CodeTyped cx (.bool m value) := by
  intro site L Γ e t s s' code hlower _ _ hfits _
  cases hlower with
  | bool =>
      refine ⟨⟨hcx.builtin_mem _ rfl, ?_⟩, .refl _⟩
      exact Provides.runs_global (hfits.provides.hasGlobal_bool _)

theorem new (m : Mark) (type : Name) : CodeTyped cx (.new m type) := by
  intro site L Γ e t s s' code hlower h _ hfits _
  cases hlower with
  | new =>
      cases h with
      | new ht => exact ⟨hfits.allocate_typed hcx ht, .refl _⟩

theorem dispatch {m : Mark} {receiver : Expr} {method : Name} {args : List Expr}
    (hreceiver : CodeTyped cx receiver) (hargs : ∀ e ∈ args, CodeTyped cx e) :
    CodeTyped cx (.dispatch m receiver method args) := by
  intro site L Γ e t s s' code hlower h hn hfits hd
  cases hlower with
  | dispatch ht hentry hlowerArgs hlower =>
      cases h with
      | dispatch he hes hoffers htakes =>
          rw [Expr.nodes, List.forall_mem_cons, List.forall_mem_append] at hn
          obtain rfl := (type_of_typeOf ht).symm.trans he.type_eq
          have htype := he.isType hcx.toInstalled hfits.covers
          obtain rfl := hfits.method_eq hcx.toInstalled htype hoffers hentry
          obtain ⟨hcode, hadds'⟩ := hreceiver hlower he hn.2.1 hfits hd
          obtain ⟨hbefore, htemps, hadds⟩ := hlowerArgs.typed hcx hargs hes htakes.length_eq
            (hcx.seenMethod htype hoffers).params_typed hn.2.2 hfits (hd.before hlower.grown)
          have hmem := hcx.resolve_mem htype
          refine ⟨hfits.call_typed hcx hmem hoffers hbefore hcode htemps ?_, hadds.trans hadds'⟩
          exact hfits.provides.generic _ hmem _ hoffers

theorem staticDispatch {m : Mark} {receiver : Expr} {target method : Name} {args : List Expr}
    (hreceiver : CodeTyped cx receiver) (hargs : ∀ e ∈ args, CodeTyped cx e) :
    CodeTyped cx (.staticDispatch m receiver target method args) := by
  intro site L Γ e t s s' code hlower h hn hfits hd
  cases hlower with
  | staticDispatch hentry hlowerArgs hlower =>
      cases h with
      | staticDispatch he hes hc _ hoffers htakes =>
          rw [Expr.nodes, List.forall_mem_cons, List.forall_mem_append] at hn
          have htype : cx.IsType target := .inr hc
          obtain rfl := hfits.method_eq hcx.toInstalled htype hoffers hentry
          obtain ⟨hcode, hadds'⟩ := hreceiver hlower he hn.2.1 hfits hd
          obtain ⟨hbefore, htemps, hadds⟩ := hlowerArgs.typed hcx hargs hes htakes.length_eq
            (hcx.seenMethod htype hoffers).params_typed hn.2.2 hfits (hd.before hlower.grown)
          have hmem := hcx.resolve_mem htype
          refine ⟨hfits.call_typed hcx hmem hoffers hbefore hcode htemps ?_, hadds.trans hadds'⟩
          split
          · exact hfits.provides.generic _ hmem _ hoffers
          · rename_i hname
            exact hfits.provides.implementation _ hmem _ hoffers hname

theorem cond {m : Mark} {pred onTrue onFalse : Expr} (hpred : CodeTyped cx pred)
    (htrue : CodeTyped cx onTrue) (hfalse : CodeTyped cx onFalse) :
    CodeTyped cx (.cond m pred onTrue onFalse) := by
  intro site L Γ e t s s' code hlower h hn hfits hd
  cases hlower with
  | cond hwant hlower₀ hlower₁ hlower₂ =>
      cases h with
      | cond he₀ he₁ he₂ hjoin =>
          rw [Expr.nodes, List.forall_mem_cons, List.forall_mem_append,
            List.forall_mem_append] at hn
          obtain ⟨htest, hadds⟩ := hpred hlower₀ he₀ hn.2.1.1 hfits
            (hd.before (hlower₁.grown.trans hlower₂.grown))
          obtain ⟨hyes, hadds₁⟩ := htrue hlower₁ he₁ hn.2.1.2 hfits (hd.before hlower₂.grown)
          obtain ⟨hno, hadds₂⟩ := hfalse hlower₂ he₂ hn.2.2 hfits hd
          obtain ⟨rfl, hmem⟩ := hfits.layout_mem hcx (hcx.isType_of_isJoin hjoin) hwant
          refine ⟨⟨hmem, ?_⟩, hadds.trans (hadds₁.trans hadds₂)⟩
          exact (hfits.unboxed hcx htest (.inr rfl)).append (.ifElse (hfits.provides.defines hmem)
            (hfits.coerced hcx hyes hmem) (hfits.coerced hcx hno hmem))

theorem loop {m : Mark} {pred body : Expr} (hpred : CodeTyped cx pred)
    (hbody : CodeTyped cx body) : CodeTyped cx (.loop m pred body) := by
  intro site L Γ e t s s' code hlower h hn hfits hd
  cases hlower with
  | loop hleave hnext hlower₀ hlower₁ =>
      cases h with
      | loop he₀ he₁ =>
          rw [Expr.nodes, List.forall_mem_cons, List.forall_mem_append] at hn
          obtain ⟨htest, hadds⟩ := hpred hlower₀ he₀ hn.2.1 hfits (hd.before hlower₁.grown)
          obtain ⟨hcode, hadds'⟩ := hbody hlower₁ he₁ hn.2.2 hfits hd
          have hobject := hcx.builtin_mem .object rfl
          refine ⟨⟨hobject, ?_⟩, AddsTyped.trans ⟨hadds.funcs, hadds.locals⟩ hadds'⟩
          exact (runs_loop (hleave ▸ hnext ▸ label_ne _ _) (hfits.unboxed hcx htest (.inr rfl))
            hcode.runs).cons (.op (.refNull (hfits.provides.defines hobject)) .nil)

theorem block {m : Mark} {es : List Expr} (hes : ∀ e ∈ es, CodeTyped cx e) :
    CodeTyped cx (.block m es) := by
  intro site L Γ e t s s' code hlower h hn hfits hd
  cases hlower with
  | blockNil =>
      refine ⟨⟨hcx.builtin_mem _ rfl, ?_⟩, .refl _⟩
      exact .op (.refNull (hfits.provides.defines (hcx.builtin_mem _ rfl))) .nil
  | block hlower hrest =>
      obtain ⟨hfirst, hes⟩ := List.forall_mem_cons.mp hes
      cases h with
      | block htypes =>
          cases htypes with
          | cons htype htypes =>
              rw [Expr.nodes, List.forall_mem_cons, Expr.nodesAll, List.forall_mem_append] at hn
              obtain ⟨hcode, hadds⟩ :=
                hfirst hlower htype hn.2.1 hfits (hd.before hrest.grown)
              obtain ⟨hresult, hadds'⟩ := hrest.typed hes htypes hn.2.2 hfits hd hcode
              exact ⟨hresult, hadds.trans hadds'⟩

theorem binary {m : Mark} {op : BinaryOp} {left right : Expr} (hleft : CodeTyped cx left)
    (hright : CodeTyped cx right) : CodeTyped cx (.binary m op left right) := by
  intro site L Γ e t s s' code hlower h hn hfits hd
  cases hlower with
  | equality ht hlower₁ hlower₂ =>
      cases h with
      | equality he₁ he₂ _ =>
          rw [Expr.nodes, List.forall_mem_cons, List.forall_mem_append] at hn
          obtain ⟨hl, hadds⟩ := hleft hlower₁ he₁ hn.2.1 hfits (hd.before hlower₂.grown)
          obtain ⟨hr, hadds'⟩ := hright hlower₂ he₂ hn.2.2 hfits hd
          exact ⟨hfits.equality_typed hcx hl hr, hadds.trans hadds'⟩
      | arithmetic hop => cases hop
      | comparison _ hop => exact absurd rfl hop
  | integer hop hlower₁ hlower₂ =>
      have hne : op ≠ .eq := by
        rintro rfl
        cases hop
      obtain ⟨_, l, r, rfl, he₁, he₂⟩ := h.integers hne
      rw [Expr.nodes, List.forall_mem_cons, List.forall_mem_append] at hn
      obtain ⟨hl, hadds⟩ := hleft hlower₁ he₁ hn.2.1 hfits (hd.before hlower₂.grown)
      obtain ⟨hr, hadds'⟩ := hright hlower₂ he₂ hn.2.2 hfits hd
      exact ⟨hfits.integer_typed hcx hop hl hr, hadds.trans hadds'⟩

theorem unary {m : Mark} {op : UnaryOp} {operand : Expr} (hoperand : CodeTyped cx operand) :
    CodeTyped cx (.unary m op operand) := by
  intro site L Γ e t s s' code hlower h hn hfits hd
  obtain ⟨_, e₁, u, rfl, he⟩ := h.operand
  rw [Expr.nodes, List.forall_mem_cons] at hn
  cases hlower with
  | neg hlower =>
      obtain ⟨hcode, hadds⟩ := hoperand hlower he hn.2 hfits hd
      refine ⟨⟨hcx.builtin_mem _ rfl, runs_boxed hfits.provides (.inl rfl) ?_⟩, hadds⟩
      exact ((CodeContext.Runs.const 0).cons ((hfits.unboxed hcx hcode (.inl rfl)).push _)).append
        (.op (.integers (by simp)) (.refl _))
  | comp hlower =>
      obtain ⟨hcode, hadds⟩ := hoperand hlower he hn.2 hfits hd
      refine ⟨⟨hcx.builtin_mem _ rfl, runs_boxed hfits.provides (.inr rfl) ?_⟩, hadds⟩
      exact (hfits.unboxed hcx hcode (.inr rfl)).append (.op .eqz (.refl _))
  | isvoid hlower =>
      obtain ⟨hcode, hadds⟩ := hoperand hlower he hn.2 hfits hd
      refine ⟨⟨hcx.builtin_mem _ rfl, runs_boxed hfits.provides (.inr rfl) ?_⟩, hadds⟩
      exact hcode.runs.append (.op .refIsNull (.refl _))

theorem letIn {m : Mark} {x type : Name} {init body : Expr} (hinit : CodeTyped cx init)
    (hbody : CodeTyped cx body) : CodeTyped cx (.letIn m x type init body) := by
  intro site L Γ e t s s' code hlower h hn hfits hd
  cases hlower with
  | letIn hdeclared hlower hvalue hname hlift =>
      have htype := h.type_eq ▸ h.isType hcx.toInstalled hfits.covers
      obtain ⟨_, init₀, body₀, rfl, hself, hbound, hinitial, hbody₀⟩ := h.binding
      rw [Expr.nodes, List.forall_mem_cons, List.forall_mem_append] at hn
      obtain ⟨rfl, hdecl⟩ := hfits.layout_mem hcx hbound hdeclared
      obtain ⟨rfl, hmem⟩ := hfits.layout_mem hcx htype hvalue
      obtain ⟨hframe, hgrows⟩ := hlift.grown (r := .binding _) hname
      have hd' := (Declared.of_frame hframe hgrows hd.locals hd.funcs).uncounted
      obtain ⟨hfirst, hadds⟩ :=
        hlower.typed hcx hinit hinitial hn.2.1 hbound rfl hfits hd'.beforeTemp
      obtain ⟨hlifted, hadds'⟩ :=
        hlift.typed hcx hbody hbody₀ hn.2.2 hn.1 hself hbound hmem hfits hd.funcs
      refine ⟨⟨hmem, ?_⟩, hadds.trans ((AddsTyped.withTemp _ hdecl).trans
        ⟨hadds'.funcs, hadds'.locals⟩)⟩
      exact ((hfirst.append (.op (.localSet hd'.temp) (.refl _))).append
        (hfits.runs_liftedArgs hn.1 (.getLocal hd'.temp))).append (hfits.runs_callLifted hlifted)

theorem caseOf {m : Mark} {scrutinee : Expr} {branches : List Branch}
    (hscrutinee : CodeTyped cx scrutinee) (hbranches : ∀ b ∈ branches, CodeTyped cx b.body) :
    CodeTyped cx (.caseOf m scrutinee branches) := by
  intro site L Γ e t s s' code hlower h hn hfits hd
  cases hlower with
  | @caseOf _ _ _ _ code value name ps back tests assigned _ s₁ s₂ hlower hvalue hname hps harms
      hback =>
      have htype := h.type_eq ▸ h.isType hcx.toInstalled hfits.covers
      obtain ⟨rfl, hmem⟩ := hfits.layout_mem hcx htype hvalue
      cases h with
      | caseOf he hbs _ _ _ =>
          rw [Expr.nodes, List.forall_mem_cons, List.forall_mem_append] at hn
          have hobject := hcx.builtin_mem .object rfl
          obtain ⟨rfl, -⟩ := Site.typedLocals_eq_ok hps
          rw [hfits.current] at hback hd ⊢
          obtain ⟨hframe, hgrows⟩ := harms.grown hname
          have hfuncs := fun f hf => hd.funcs f (List.mem_append_left _ hf)
          have hd' := (Declared.of_frame hframe hgrows hd.locals hfuncs).uncounted
          obtain ⟨hcode, hadds⟩ := hscrutinee hlower he hn.2.1 hfits hd'.beforeTemp
          have hmem_branches : ∀ b ∈ deepestFirst
              (fun b => site.members.hierarchy.depth b.type) branches, b ∈ branches :=
            fun b hb => mem_deepestFirst.mp hb
          have hbranchTyped := branchTyped_of_mem hbs hn.2.2
          obtain ⟨htests, hadds'⟩ := harms.typed hcx (fun b hb => hbranches b (hmem_branches b hb))
            (fun b hb => hbranchTyped b (hmem_branches b hb)) hmem hname
            (hfits.reslot [(scrutineeLocal, valueType .object)] []) (by simp) hfuncs
          have hkept : ∀ q ∈ back, q ∈ site.locals.map (Site.typedLocal cx.current) :=
            fun q hq => (mem_handedBack (hback ▸ hq)).1
          have hemitted : AddsTyped cx Γ.module s₂ _ :=
            .emitting s₂ (selectFunc_valid name hcx hfits hmem hkept htests)
          have hselect := hd.funcs _ (List.mem_append_right _ (List.mem_singleton_self _))
          refine ⟨⟨hmem, ?_⟩, hadds.trans ((AddsTyped.withTemp _ hobject).trans
            (AddsTyped.trans ⟨hadds'.funcs, hadds'.locals⟩ ?_))⟩
          · rw [List.append_assoc, List.append_assoc]
            exact (hfits.coerced hcx hcode hobject).append
              (List.append_assoc _ _ _ ▸ runs_select hfits hd'.temp hkept hselect)
          · exact ⟨hemitted.funcs, fun _ hl => .inl hl⟩

end

include hcx hprim

theorem object (m : Mark) (x : Name) : CodeTyped cx (.object m x) := by
  intro site L Γ e t s s' code hlower h _ hfits _
  cases hlower with
  | object hcode =>
      cases h with
      | object hx => exact ⟨hfits.read_typed hcx hprim hx hcode, .refl _⟩

theorem assign {m : Mark} {x : Name} {value : Expr} (hvalue : CodeTyped cx value) :
    CodeTyped cx (.assign m x value) := by
  intro site L Γ e t s s' code hlower h hn hfits hd
  cases h with
  | assign hself hx he _ =>
      rw [Expr.nodes, List.forall_mem_cons] at hn
      have htype := hfits.covers _ _ hx
      cases hlower with
      | assignLocal hlookup hwant hlower =>
          obtain ⟨hcode, hadds⟩ := hvalue hlower he hn.2 hfits ⟨hd.locals, hd.funcs⟩
          obtain rfl := hfits.type_of_lookup hself hx hlookup
          obtain ⟨rfl, hmem⟩ := hfits.layout_mem hcx htype hwant
          refine ⟨⟨hmem, ?_⟩, hadds.funcs, hadds.locals⟩
          exact (hfits.coerced hcx hcode hmem).append
            (.op (.localTee (hfits.slot_mem hlookup)) (.refl _))
      | assignField hlookup hwant hlower =>
          obtain ⟨hcode, hadds⟩ := hvalue hlower he hn.2 hfits hd.beforeTemp
          obtain ⟨a, ha, rfl, rfl, rfl⟩ := hfits.attribute hcx.toInstalled hlookup hwant
          have hmem := attributeLayout_mem hcx ha
            (hfits.type_of_lookup hself hx hlookup ▸ htype)
          refine ⟨⟨hmem, ?_⟩, hadds.trans (.withTemp _ hmem)⟩
          exact (hfits.coerced hcx hcode hmem).append (hfits.runs_setField hcx hprim ha hd.temp)

end CodeTyped

mutual

/-- The code of every expression is well typed where the expression was checked. -/
theorem codeTyped {cx : Context} (hcx : cx.Proper) (hprim : cx.current.isPrimitive = false) :
    ∀ e : Expr, CodeTyped cx e
  | .missing => nofun
  | .noExpr _ => nofun
  | .int m token => .int hcx m token
  | .string m value => .string hcx m value
  | .bool m value => .bool hcx m value
  | .object m x => .object hcx hprim m x
  | .assign _ _ value => .assign hcx hprim (codeTyped hcx hprim value)
  | .new m type => .new hcx m type
  | .dispatch _ receiver _ args =>
      .dispatch hcx (codeTyped hcx hprim receiver) (codeTyped_all hcx hprim args)
  | .staticDispatch _ receiver _ _ args =>
      .staticDispatch hcx (codeTyped hcx hprim receiver) (codeTyped_all hcx hprim args)
  | .cond _ pred onTrue onFalse =>
      .cond hcx (codeTyped hcx hprim pred) (codeTyped hcx hprim onTrue)
        (codeTyped hcx hprim onFalse)
  | .loop _ pred body => .loop hcx (codeTyped hcx hprim pred) (codeTyped hcx hprim body)
  | .block _ body => .block hcx (codeTyped_all hcx hprim body)
  | .binary _ _ left right => .binary hcx (codeTyped hcx hprim left) (codeTyped hcx hprim right)
  | .unary _ _ operand => .unary hcx (codeTyped hcx hprim operand)
  | .letIn _ _ _ init body => .letIn hcx (codeTyped hcx hprim init) (codeTyped hcx hprim body)
  | .caseOf _ scrutinee branches =>
      .caseOf hcx (codeTyped hcx hprim scrutinee) (codeTyped_branches hcx hprim branches)
termination_by structural e => e

theorem codeTyped_all {cx : Context} (hcx : cx.Proper) (hprim : cx.current.isPrimitive = false) :
    ∀ es : List Expr, ∀ e ∈ es, CodeTyped cx e
  | [] => nofun
  | e :: rest => List.forall_mem_cons.mpr ⟨codeTyped hcx hprim e, codeTyped_all hcx hprim rest⟩
termination_by structural es => es

theorem codeTyped_branches {cx : Context} (hcx : cx.Proper)
    (hprim : cx.current.isPrimitive = false) :
    ∀ bs : List Branch, ∀ b ∈ bs, CodeTyped cx b.body
  | [] => nofun
  | .mk _ _ _ body :: rest =>
      List.forall_mem_cons.mpr ⟨codeTyped hcx hprim body, codeTyped_branches hcx hprim rest⟩
termination_by structural bs => bs

end

end Cool.Lowering
