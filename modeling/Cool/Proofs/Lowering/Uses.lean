import Cool.Proofs.Lowering.Classes
import Cool.Proofs.Lowering.Runs

/-! The uses of expressions. Lowering a feature lowers the expressions in it, each for a value that
is used as it is or that is asked at a class. -/

namespace Cool.Lowering

open Wat

/-! ## Uses -/

/-- An expression that is lowered, with the class its value is asked at, if there is one. -/
structure Use where
  site : Site
  expr : Expr
  want : Option Name

/-- The class that represents the type of the expression. -/
def Use.layout (u : Use) : Name :=
  Members.resolve u.expr.type u.site.current

namespace Site

/-- The class of the values that a variable holds. -/
def stored (site : Site) (x : Name) : Except Fault Name := do
  let b ← site.binding x
  match b.place with
  | .local => site.layout b.type
  | .field => site.attributeClass x

theorem stored_of_local {site : Site} {x t c : Name} (hx : site.scope.lookup x = some ⟨.local, t⟩)
    (hc : site.layout t = .ok c) : site.stored x = .ok c := by
  rw [stored, binding_of_lookup hx]
  exact hc

theorem stored_of_field {site : Site} {x t c : Name} (hx : site.scope.lookup x = some ⟨.field, t⟩)
    (hc : site.attributeClass x = .ok c) : site.stored x = .ok c := by
  rw [stored, binding_of_lookup hx]
  exact hc

/-- The receiver of a call is asked at the class that introduced the method, and the arguments are
asked at the classes of the parameters. -/
def callUses (site : Site) (receiver : Expr) (args : List Expr) :
    Except Fault MethodEntry → List Use
  | .ok m => ⟨site, receiver, some m.intro⟩ ::
      List.zipWith (fun e p => ⟨site, e, some p.type⟩) args m.params
  | .error _ => []

end Site

/-- The class at which the operands of an operator are asked, given the type of the left one. -/
def operandClass? (op : BinaryOp) (left : Name) : Option Name :=
  if op = .eq then if left.isPrimitive then some left else none
  else some .int

theorem operandClass?_of_integerOp? {op : BinaryOp} {instr : Op} (hop : integerOp? op = some instr)
    (left : Name) : operandClass? op left = some .int := by
  refine if_neg ?_
  rintro rfl
  cases hop

/-- The uses that lowering an expression makes of its parts. -/
def Site.uses (site : Site) : Expr → List Use
  | .block _ body => body.map fun e => ⟨site, e, none⟩
  | .assign _ x value => [⟨site, value, (site.stored x).toOption⟩]
  | .dispatch _ receiver method args =>
    site.callUses receiver args (site.method receiver.type method)
  | .staticDispatch _ receiver target method args =>
    site.callUses receiver args (site.method target method)
  | .cond m pred onTrue onFalse =>
    [⟨site, pred, some .bool⟩, ⟨site, onTrue, (site.layout m.type).toOption⟩,
      ⟨site, onFalse, (site.layout m.type).toOption⟩]
  | .loop _ pred body => [⟨site, pred, some .bool⟩, ⟨site, body, none⟩]
  | .caseOf m scrutinee branches =>
    ⟨site, scrutinee, some .object⟩ :: branches.map fun b =>
      ⟨site.bind b.name b.type, b.body, (site.layout m.type).toOption⟩
  | .letIn m x type init body =>
    (if init.isAbsent then [] else [⟨site, init, (site.layout type).toOption⟩]) ++
      [⟨site.bind x type, body, (site.layout m.type).toOption⟩]
  | .binary _ op left right =>
    [⟨site, left, operandClass? op left.type⟩, ⟨site, right, operandClass? op left.type⟩]
  | .unary _ .neg operand => [⟨site, operand, some .int⟩]
  | .unary _ .comp operand => [⟨site, operand, some .bool⟩]
  | .unary _ _ operand => [⟨site, operand, none⟩]
  | _ => []

/-- The uses that lowering an expression makes of the parts in it, of any depth. -/
def Use.Asks : Use → Use → Prop :=
  Relation.ReflTransGen fun u v => v ∈ u.site.uses u.expr

/-- The expressions that a feature of a class has. -/
def featureUses (site : Site) : Feature → List Use
  | .attr a =>
    if a.init.isAbsent then [] else [⟨site, a.init, (site.attributeClass a.name).toOption⟩]
  | .method m =>
    [⟨site.withFormals m.formals, m.body, (site.ownMethod m).toOption.map resultLayout⟩]

/-! ## Uses are lowered -/

/-- A use whose expression is lowered in some state. -/
def Use.Runs (u : Use) : Prop :=
  ∃ s code s', lower u.site u.expr s = .ok (code, s')

theorem Lowers.runs {site : Site} {e : Expr} {s s' : Progress} {code : Code}
    (h : Lowers site e s code s') (want : Option Name) : Use.Runs ⟨site, e, want⟩ :=
  ⟨s, code, s', lower_eq_ok_iff.mpr h⟩

theorem LowersRest.runs {site : Site} {before code : Code} {es : List Expr} {s s' : Progress}
    (h : LowersRest site before es s code s') : ∀ e ∈ es, Use.Runs ⟨site, e, none⟩ := by
  induction es generalizing before s with
  | nil => exact List.forall_mem_nil _
  | cons e es ih =>
      cases h with
      | cons he hrest => exact List.forall_mem_cons.mpr ⟨he.runs none, ih hrest⟩

theorem LowersArgs.runs {site : Site} {ps : List Parameter} {es : List Expr} {instrs : List Instr}
    {temps : List String} {s s' : Progress} (h : LowersArgs site ps es s instrs temps s') :
    ∀ v ∈ List.zipWith (fun e p => (⟨site, e, some p.type⟩ : Use)) es ps, v.Runs := by
  induction es generalizing ps s instrs temps with
  | nil => exact nofun
  | cons e es ih =>
      cases h with
      | cons he hrest => exact List.forall_mem_cons.mpr ⟨he.runs _, ih hrest⟩

theorem Lifts.runs {site : Site} {name : String} {x type value : Name} {body : Expr}
    {back : List (Name × ValType)} {s s' : Progress}
    (h : Lifts site name x type value body s back s') (want : Option Name) :
    Use.Runs ⟨site.bind x type, body, want⟩ := by
  cases h with
  | mk _ hbody _ => exact hbody.runs want

theorem LowersArms.runs {site : Site} {name : String} {value : Name} {i : Nat} {bs : List Branch}
    {tests : List Instr} {assigned : List Name} {s s' : Progress}
    (h : LowersArms site name value i bs s tests assigned s') (want : Option Name) :
    ∀ b ∈ bs, Use.Runs ⟨site.bind b.name b.type, b.body, want⟩ := by
  induction bs generalizing i s tests assigned with
  | nil => exact List.forall_mem_nil _
  | cons b bs ih =>
      cases h with
      | cons hb hrest => exact List.forall_mem_cons.mpr ⟨hb.runs want, ih hrest⟩

/-- Where an expression is lowered its parts are. -/
theorem Use.Runs.uses {u v : Use} (hu : u.Runs) (hv : v ∈ u.site.uses u.expr) : v.Runs := by
  obtain ⟨site, e, _⟩ := u
  obtain ⟨s, code, s', hrun⟩ := hu
  have hlower : Lowers site e s code s' := lower_eq_ok_iff.mp hrun
  have hcall : ∀ {receiver : Expr} {args : List Expr} {entry : MethodEntry} {s s₁ s₂ : Progress}
      {before : List Instr} {temps : List String} {code : Code},
      LowersArgs site entry.params args s before temps s₁ → Lowers site receiver s₁ code s₂ →
      ∀ w ∈ site.callUses receiver args (.ok entry), w.Runs :=
    fun hargs hreceiver => List.forall_mem_cons.mpr ⟨hreceiver.runs _, hargs.runs⟩
  cases hlower with
  | int | string | bool | object | new | blockNil => cases hv
  | assignLocal _ _ hvalue | assignField _ _ hvalue =>
      rw [List.mem_singleton.mp hv]
      exact hvalue.runs _
  | dispatch ht hentry hargs hreceiver =>
      rw [Site.uses, type_of_typeOf ht, hentry] at hv
      exact hcall hargs hreceiver v hv
  | staticDispatch hentry hargs hreceiver =>
      rw [Site.uses, hentry] at hv
      exact hcall hargs hreceiver v hv
  | cond _ hpred htrue hfalse =>
      simp only [Site.uses, List.mem_cons, List.not_mem_nil, or_false] at hv
      rcases hv with rfl | rfl | rfl
      · exact hpred.runs _
      · exact htrue.runs _
      · exact hfalse.runs _
  | loop _ _ hpred hbody =>
      rcases List.mem_pair.mp hv with rfl | rfl
      · exact hpred.runs _
      · exact hbody.runs _
  | block he hrest =>
      obtain ⟨e, hmem, rfl⟩ := List.mem_map.mp hv
      rcases List.mem_cons.mp hmem with rfl | hmem
      · exact he.runs none
      · exact hrest.runs e hmem
  | equality _ hleft hright | integer _ hleft hright =>
      rcases List.mem_pair.mp hv with rfl | rfl
      · exact hleft.runs _
      · exact hright.runs _
  | neg hoperand | comp hoperand | isvoid hoperand =>
      rw [List.mem_singleton.mp hv]
      exact hoperand.runs _
  | letIn _ hinit _ _ hbody =>
      rcases List.mem_append.mp hv with hv | hv
      · cases hinit with
        | default habsent =>
            rw [if_pos habsent] at hv
            cases hv
        | value hpresent hcode =>
            rw [if_neg (Bool.eq_false_iff.mp hpresent)] at hv
            rw [List.mem_singleton.mp hv]
            exact hcode.runs _
      · rw [List.mem_singleton.mp hv]
        exact hbody.runs _
  | caseOf hscrutinee _ _ _ harms _ =>
      rcases List.mem_cons.mp hv with rfl | hv
      · exact hscrutinee.runs _
      · obtain ⟨b, hb, rfl⟩ := List.mem_map.mp hv
        exact harms.runs _ b (mem_deepestFirst.mpr hb)

theorem Use.Runs.asks {u v : Use} (hu : u.Runs) (hv : u.Asks v) : v.Runs := by
  induction hv with
  | refl => exact hu
  | tail _ hpart ih => exact ih.uses hpart

/-! ## Features are lowered -/

theorem Initializes.runs {site : Site} {fs : List Feature} {s s' : Progress}
    {instrs : List Instr} (h : Initializes site fs s instrs s') {a : Attribute}
    (ha : .attr a ∈ fs) : ∀ u ∈ featureUses site (.attr a), u.Runs := by
  induction h with
  | nil => cases ha
  | method _ ih => exact ih ((List.mem_cons.mp ha).resolve_left nofun)
  | absent habsent _ ih =>
      rcases List.mem_cons.mp ha with heq | ha
      · cases heq
        rw [featureUses, if_pos habsent]
        exact nofun
      · exact ih ha
  | attr hpresent _ hinit _ ih =>
      rcases List.mem_cons.mp ha with heq | ha
      · cases heq
        rw [featureUses, if_neg (Bool.eq_false_iff.mp hpresent)]
        exact List.forall_mem_singleton.mpr (hinit.runs _)
      · exact ih ha

theorem EmitsMethods.runs {site : Site} {fs : List Feature} {s s' : Progress}
    (h : EmitsMethods site fs s s') {m : Method} (hm : .method m ∈ fs) :
    ∀ u ∈ featureUses site (.method m), u.Runs := by
  induction h with
  | nil => cases hm
  | attr _ ih => exact ih ((List.mem_cons.mp hm).resolve_left nofun)
  | method _ hbody _ ih =>
      rcases List.mem_cons.mp hm with heq | hm
      · cases heq
        exact List.forall_mem_singleton.mpr (hbody.runs _)
      · exact ih hm

/-- Emitting a class lowers the expressions of its features. -/
theorem EmitsClass.runs {ms : Members} {pool : Pool} {c : Name} {fs : List Feature}
    {s s' : Progress} (h : EmitsClass ms pool c fs s s') (hprim : c.isPrimitive = false)
    {f : Feature} (hf : f ∈ fs) : ∀ u ∈ featureUses (classSite ms pool c) f, u.Runs := by
  cases h with
  | mk _ hinit _ hmethods =>
      cases f with
      | method m => exact hmethods.runs hf
      | attr a =>
          cases hinit with
          | primitive hnot => exact absurd hnot (Bool.eq_false_iff.mp hprim)
          | object _ hown => exact hown.runs hf

end Cool.Lowering
