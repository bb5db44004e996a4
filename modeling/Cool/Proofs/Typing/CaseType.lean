import Cool.Proofs.Hierarchy.Join
import Cool.Proofs.Members.Resolution
import Cool.Typing.Check

/-! The type of a case. The type of an expression does not depend on what was recorded before it is
checked, so that of a case is the join of the types of its branches, one after the other. Joins
make a semilattice, and the order of the branches does not matter. -/

namespace Cool.Typing

variable {α β γ δ : Type}

/-! ## Types do not depend on the journal -/

/-- Two runs whose results look the same, whatever was recorded before each of them. -/
def Agree (view : α → γ) (x y : Recording α) : Prop :=
  ∀ j j' : Journal, view (x.run j).1 = view (y.run j').1

namespace Agree

theorem pure {view : α → γ} {a b : α} (hab : view a = view b) :
    Agree view (pure a : Recording α) (pure b) :=
  fun _ _ => hab

theorem bind {view : α → γ} {view' : β → δ} {x y : Recording α} {f g : α → Recording β}
    (hxy : Agree view x y) (hfg : ∀ a b, view a = view b → Agree view' (f a) (g b)) :
    Agree view' (x >>= f) (y >>= g) :=
  fun j j' => hfg _ _ (hxy j j') (x.run j).2 (y.run j').2

/-- Nothing is seen of a run without a result. -/
theorem unit (x y : Recording Unit) : Agree id x y :=
  fun _ _ => rfl

theorem typed (m m' : Mark) (t : Name) (form form' : Mark → Expr) :
    Agree Prod.snd (typed m t form) (typed m' t form') :=
  fun _ _ => rfl

theorem illTyped (m m' : Mark) (problem problem' : Problem) (form form' : Mark → Expr) :
    Agree Prod.snd (illTyped m problem form) (illTyped m' problem' form') :=
  (unit _ _).bind fun _ _ _ => typed m m' .errType form form'

end Agree

theorem lastType_congr {rs rs' : List (Expr × Name)} (h : rs.map Prod.snd = rs'.map Prod.snd) :
    lastType rs = lastType rs' := by
  have hlast := congrArg List.getLast? h
  simp only [List.getLast?_map] at hlast
  unfold lastType
  cases hrs : rs.getLast? <;> cases hrs' : rs'.getLast? <;> simp_all

mutual

/-- Every run of the check of an expression returns the same type. -/
theorem agree_check (cx : Context) (scope : Scope Name Name) :
    ∀ e : Expr, Agree Prod.snd (check cx scope e) (check cx scope e)
  | .missing => by
      rw [check]
      exact .pure rfl
  | .noExpr m => by
      rw [check]
      exact .typed _ _ _ _ _
  | .block m body => by
      rw [check]
      refine (agree_checkAll cx scope body).bind fun rs rs' hrs => ?_
      rw [lastType_congr hrs]
      exact .typed _ _ _ _ _
  | .assign m name value => by
      rw [check]
      refine (agree_check cx scope value).bind fun r r' hr => ?_
      dsimp only
      rw [hr]
      split
      · exact .illTyped _ _ _ _ _ _
      · split
        · exact .illTyped _ _ _ _ _ _
        · split
          · exact .typed _ _ _ _ _
          · exact .illTyped _ _ _ _ _ _
  | .dispatch m receiver method args => by
      rw [check]
      refine (agree_check cx scope receiver).bind fun r r' hr => ?_
      refine (agree_checkAll cx scope args).bind fun rs rs' _ => ?_
      dsimp only
      rw [hr]
      split
      · exact .typed _ _ _ _ _
      · split
        · exact .illTyped _ _ _ _ _ _
        · exact (Agree.unit _ _).bind fun _ _ _ => .typed _ _ _ _ _
  | .staticDispatch m receiver target method args => by
      rw [check]
      refine (agree_check cx scope receiver).bind fun r r' hr => ?_
      refine (agree_checkAll cx scope args).bind fun rs rs' _ => ?_
      dsimp only
      rw [hr]
      split
      · exact .illTyped _ _ _ _ _ _
      · split
        · refine (Agree.unit _ _).bind fun _ _ _ => ?_
          split
          · exact .illTyped _ _ _ _ _ _
          · exact (Agree.unit _ _).bind fun _ _ _ => .typed _ _ _ _ _
        · exact .illTyped _ _ _ _ _ _
  | .cond m pred onTrue onFalse => by
      rw [check]
      refine (agree_check cx scope pred).bind fun _ _ _ => ?_
      refine (Agree.unit _ _).bind fun _ _ _ => ?_
      refine (agree_check cx scope onTrue).bind fun r r' hr => ?_
      refine (agree_check cx scope onFalse).bind fun s s' hs => ?_
      dsimp only
      rw [hr, hs]
      exact .typed _ _ _ _ _
  | .loop m pred body => by
      rw [check]
      exact (agree_check cx scope pred).bind fun _ _ _ =>
        (Agree.unit _ _).bind fun _ _ _ =>
        (agree_check cx scope body).bind fun _ _ _ => .typed _ _ _ _ _
  | .caseOf m scrutinee branches => by
      rw [check]
      refine (agree_check cx scope scrutinee).bind fun _ _ _ => ?_
      refine (agree_checkBranches cx scope [] none branches).bind fun r r' hr => ?_
      dsimp only
      rw [hr]
      exact .typed _ _ _ _ _
  | .letIn m name type init body => by
      rw [check]
      refine (agree_check cx scope init).bind fun _ _ _ => ?_
      refine (Agree.unit _ _).bind fun _ _ _ => ?_
      refine (agree_check cx _ body).bind fun r r' hr => ?_
      dsimp only
      rw [hr]
      exact .typed _ _ _ _ _
  | .binary m op left right => by
      rw [check]
      exact (agree_check cx scope left).bind fun _ _ _ =>
        (agree_check cx scope right).bind fun _ _ _ =>
        (Agree.unit _ _).bind fun _ _ _ => .typed _ _ _ _ _
  | .unary m op operand => by
      rw [check]
      exact (agree_check cx scope operand).bind fun _ _ _ =>
        (Agree.unit _ _).bind fun _ _ _ => .typed _ _ _ _ _
  | .int m token => by
      rw [check]
      exact .typed _ _ _ _ _
  | .string m value => by
      rw [check]
      exact .typed _ _ _ _ _
  | .bool m value => by
      rw [check]
      exact .typed _ _ _ _ _
  | .new m type => by
      rw [check]
      split
      · exact .typed _ _ _ _ _
      · exact .illTyped _ _ _ _ _ _
  | .object m name => by
      rw [check]
      split
      · exact .typed _ _ _ _ _
      · exact .illTyped _ _ _ _ _ _
termination_by structural e => e

theorem agree_checkAll (cx : Context) (scope : Scope Name Name) : ∀ es : List Expr,
    Agree (List.map Prod.snd) (checkAll cx scope es) (checkAll cx scope es)
  | [] => by
      rw [checkAll]
      exact .pure rfl
  | e :: es => by
      rw [checkAll]
      refine (agree_check cx scope e).bind fun r r' hr => ?_
      refine (agree_checkAll cx scope es).bind fun rs rs' hrs => .pure ?_
      rw [List.map_cons, List.map_cons, hr, hrs]
termination_by structural es => es

theorem agree_checkBranches (cx : Context) (scope : Scope Name Name) (guards : List Name)
    (before : Option Name) : ∀ bs : List Branch,
    Agree Prod.snd (checkBranches cx scope guards before bs)
      (checkBranches cx scope guards before bs)
  | [] => by
      rw [checkBranches]
      exact .pure rfl
  | .mk span name guard body :: bs => by
      rw [checkBranches]
      split
      · exact (Agree.unit _ _).bind fun _ _ _ =>
          (agree_checkBranches cx scope _ _ bs).bind fun _ _ hr => .pure hr
      · refine (Agree.unit _ _).bind fun _ _ _ => ?_
        refine (agree_check cx _ body).bind fun r r' hr => ?_
        dsimp only
        rw [hr]
        exact (agree_checkBranches cx scope _ _ bs).bind fun _ _ hr => .pure hr
termination_by structural bs => bs

end

/-- The type that checking gives an expression. -/
def typeOf (cx : Context) (scope : Scope Name Name) (e : Expr) : Name :=
  ((check cx scope e).run {}).1.2

theorem check_type (cx : Context) (scope : Scope Name Name) (e : Expr) (j : Journal) :
    ((check cx scope e).run j).1.2 = typeOf cx scope e :=
  agree_check cx scope e j {}

/-! ## The type of a case -/

/-- The branches whose guards occur neither before them nor among the given ones. -/
def distinctBranches (guards : List Name) : List Branch → List Branch
  | [] => []
  | .mk span name guard body :: bs =>
    if guard ∈ guards then distinctBranches guards bs
    else .mk span name guard body :: distinctBranches (guard :: guards) bs

theorem distinctBranches_of_nodup {guards : List Name} {bs : List Branch}
    (hbs : (bs.map Branch.type).Nodup) (hguards : ∀ b ∈ bs, b.type ∉ guards) :
    distinctBranches guards bs = bs := by
  induction bs generalizing guards with
  | nil => rfl
  | cons b bs ih =>
      obtain ⟨span, name, guard, body⟩ := b
      obtain ⟨hb, hbs⟩ := List.nodup_cons.mp hbs
      have hguard : guard ∉ guards := hguards _ List.mem_cons_self
      rw [distinctBranches, if_neg hguard, ih hbs]
      intro c hc hmem
      rcases List.mem_cons.mp hmem with heq | hmem
      · exact hb (List.mem_map.mpr ⟨c, hc, heq⟩)
      · exact hguards c (List.mem_cons_of_mem _ hc) hmem

namespace Context

/-- The type of the body of a branch. -/
def branchType (cx : Context) (scope : Scope Name Name) (b : Branch) : Name :=
  typeOf cx (bind scope b.name b.type) b.body

/-- The join of types with those before them, one after the other. -/
def runningJoin (cx : Context) (before : Option Name) (ts : List Name) : Option Name :=
  ts.foldl (fun before t => some (cx.joinAfter before t)) before

end Context

theorem checkBranches_type (cx : Context) (scope : Scope Name Name) (guards : List Name)
    (before : Option Name) (bs : List Branch) (j : Journal) :
    ((checkBranches cx scope guards before bs).run j).1.2 =
      cx.runningJoin before ((distinctBranches guards bs).map (cx.branchType scope)) := by
  induction bs generalizing guards before j with
  | nil =>
      rw [checkBranches]
      rfl
  | cons b bs ih =>
      obtain ⟨span, name, guard, body⟩ := b
      rw [checkBranches]
      by_cases hguard : guard ∈ guards
      · rw [if_pos hguard, distinctBranches, if_pos hguard]
        exact ih guards before _
      · rw [if_neg hguard, distinctBranches, if_neg hguard, List.map_cons]
        have hbody := check_type cx (Context.bind scope name guard) body
          ((cx.checkGuard span name guard).run j).2
        refine (ih (guard :: guards) (some (cx.joinAfter before _)) _).trans ?_
        exact congrArg (fun t => cx.runningJoin (some (cx.joinAfter before t)) _) hbody

theorem check_caseOf_type (cx : Context) (scope : Scope Name Name) (m : Mark) (scrutinee : Expr)
    (bs : List Branch) (j : Journal) :
    ((check cx scope (.caseOf m scrutinee bs)).run j).1.2 =
      (cx.runningJoin none ((distinctBranches [] bs).map (cx.branchType scope))).getD .noType := by
  rw [check]
  exact congrArg (Option.getD · .noType)
    (checkBranches_type cx scope [] none bs ((check cx scope scrutinee).run j).2)

/-- Joins commute and associate, so a running join depends on the types only. -/
theorem runningJoin_perm (cx : Context) (hr : cx.hierarchy.Rooted)
    (herr : Name.errType ∉ cx.hierarchy.names) (hcur : cx.current ∈ cx.hierarchy.names)
    {ts ts' : List Name} (hts : ts.Perm ts') (before : Option Name) :
    cx.runningJoin before ts = cx.runningJoin before ts' := by
  refine hts.foldl_eq' (fun t _ u _ before => ?_) before
  cases before with
  | none => exact congrArg some (Hierarchy.join_comm hr herr hcur t u)
  | some s =>
      refine congrArg some ?_
      calc cx.join (cx.join s t) u
        _ = cx.join s (cx.join t u) := Hierarchy.join_assoc hr herr hcur s t u
        _ = cx.join s (cx.join u t) := congrArg (cx.join s) (Hierarchy.join_comm hr herr hcur t u)
        _ = cx.join (cx.join s u) t := (Hierarchy.join_assoc hr herr hcur s u t).symm

/-- Inside a class of a valid hierarchy, the join of two types is their least upper bound under
conformance. With the error type as identity, joins commute, associate and are idempotent, so the
type of a case is the same for all orders of its branches. A branch whose guard is a repetition
takes no part in it. -/
theorem join_laws_and_case_type_of_perm {p : Program} (hvalid : (Hierarchy.build p).1.valid = true)
    (herr : Name.errType ∉ (Hierarchy.build p).1.names) {current : Name}
    (hcur : current ∈ (Hierarchy.build p).1.names) :
    let h := (Hierarchy.build p).1
    (∀ a b, h.IsType a → h.IsType b →
      h.conforms a (h.join a b current) current = true ∧
      h.conforms b (h.join a b current) current = true ∧
      ∀ u, h.conforms a u current = true → h.conforms b u current = true →
        h.conforms (h.join a b current) u current = true) ∧
    (∀ a, h.join .errType a current = a ∧ h.join a .errType current = a) ∧
    (∀ a b, h.join a b current = h.join b a current) ∧
    (∀ a b c, h.join (h.join a b current) c current = h.join a (h.join b c current) current) ∧
    (∀ a, h.join a a current = a) ∧
    ∀ (ms : Members) (scope : Scope Name Name) (m : Mark) (scrutinee : Expr) (bs bs' : List Branch)
      (j j' : Journal), ms.hierarchy = h →
      (distinctBranches [] bs).Perm (distinctBranches [] bs') ∨
        (bs.map Branch.type).Nodup ∧ bs.Perm bs' →
      ((check ⟨ms, current⟩ scope (.caseOf m scrutinee bs)).run j).1.2 =
        ((check ⟨ms, current⟩ scope (.caseOf m scrutinee bs')).run j').1.2 := by
  intro h
  have hr : h.Rooted := Hierarchy.rooted_of_valid hvalid
  refine ⟨fun a b ha hb => ?_, fun a => ⟨?_, ?_⟩, Hierarchy.join_comm hr herr hcur,
    Hierarchy.join_assoc hr herr hcur, Hierarchy.join_self hr herr hcur, ?_⟩
  · obtain ⟨haj, hbj⟩ := Hierarchy.precedes_join hr herr hcur a b
    have hj : h.IsType (h.join a b current) := haj.isType hr herr hcur ha
    simp only [Hierarchy.conforms_iff_precedes hr herr hcur, ha, hb, hj,
      Hierarchy.join_precedes_iff hr herr hcur]
    refine ⟨.inr haj, .inr hbj, fun u hau hbu => ?_⟩
    rw [or_and_left]
    exact ⟨hau, hbu⟩
  · simp [Hierarchy.join]
  · by_cases ha : a = .errType <;> simp [Hierarchy.join, ha]
  · intro ms scope m scrutinee bs bs' j j' hms hbs
    have hperm : (distinctBranches [] bs).Perm (distinctBranches [] bs') := by
      rcases hbs with hperm | ⟨hnodup, hperm⟩
      · exact hperm
      · have hnodup' : (bs'.map Branch.type).Nodup := (hperm.map Branch.type).nodup_iff.mp hnodup
        rwa [distinctBranches_of_nodup hnodup (by simp),
          distinctBranches_of_nodup hnodup' (by simp)]
    have hcx : Context.hierarchy ⟨ms, current⟩ = h := hms
    have hjoin := runningJoin_perm ⟨ms, current⟩ (by rwa [hcx]) (by rwa [hcx]) (by rwa [hcx])
      (hperm.map (Context.branchType ⟨ms, current⟩ scope)) none
    rw [check_caseOf_type, check_caseOf_type, hjoin]

/-- The tree of `class A {}; class B inherits A {}; class C inherits A {};`. -/
def twoHeirs : Program :=
  let span : Span := ⟨"heirs.cl", 1⟩
  ⟨span, [⟨span, .named "A", .object, []⟩, ⟨span, .named "B", .named "A", []⟩,
    ⟨span, .named "C", .named "A", []⟩]⟩

/-- Inside `B`, the branches `x : Int => self`, `y : String => new C` and `z : Int => x` give a case
the type `A`, and so do the first two the other way round. -/
theorem case_type_of_twoHeirs :
    let h := (Hierarchy.build twoHeirs).1
    let m : Mark := { span := ⟨"heirs.cl", 1⟩ }
    let first : Branch := .mk m.span (.named "x") .int (.object m .self)
    let second : Branch := .mk m.span (.named "y") .string (.new m (.named "C"))
    let third : Branch := .mk m.span (.named "z") .int (.object m (.named "x"))
    let scope := ({} : Scope Name Name).enterWith [(.self, .selfType)]
    h.valid = true ∧ Name.errType ∉ h.names ∧ Name.named "B" ∈ h.names ∧
      ∃ ms, Members.build h = .ok (ms, []) ∧
        let typeIn := fun bs j =>
          ((check ⟨ms, .named "B"⟩ scope (.caseOf m (.int m "1") bs)).run j).1.2
        typeIn [second, first] {} = .named "A" ∧
          ∀ j, typeIn [first, second, third] j = typeIn [second, first] {} := by
  intro h m first second third scope
  have hvalid : h.valid = true := by decide
  have hb := Members.build_eq_ok hvalid (by decide +kernel)
  have hms := (Members.coherent_of_build (Hierarchy.rooted_of_valid hvalid) hb).2
  refine ⟨hvalid, by decide, by decide, _, hb, by decide +kernel, fun j => ?_⟩
  have hlaws := join_laws_and_case_type_of_perm (p := twoHeirs) hvalid (by decide)
    (show Name.named "B" ∈ h.names by decide)
  exact hlaws.2.2.2.2.2 _ scope m _ _ _ j {} hms (.inl (.swap second first []))

/-- The order of branches that share a guard is seen, because the later one is skipped: inside `B`,
the branches `x : Int => 1` and `z : Int => "s"` give a case the type `Int`, and the other way round
the type `String`. -/
theorem case_type_of_repeatedGuard :
    let h := (Hierarchy.build twoHeirs).1
    let m : Mark := { span := ⟨"heirs.cl", 1⟩ }
    let first : Branch := .mk m.span (.named "x") .int (.int m "1")
    let second : Branch := .mk m.span (.named "z") .int (.string m "s")
    let scope := ({} : Scope Name Name).enterWith [(.self, .selfType)]
    h.valid = true ∧ Name.errType ∉ h.names ∧ Name.named "B" ∈ h.names ∧
      ∃ ms, Members.build h = .ok (ms, []) ∧
        let typeIn := fun bs =>
          ((check ⟨ms, .named "B"⟩ scope (.caseOf m (.int m "1") bs)).run {}).1.2
        typeIn [first, second] = .int ∧ typeIn [second, first] = .string ∧
          ¬ ∀ bs bs' : List Branch, bs.Perm bs' → typeIn bs = typeIn bs' := by
  intro h m first second scope
  have hvalid : h.valid = true := by decide
  have hb := Members.build_eq_ok hvalid (by decide +kernel)
  refine ⟨hvalid, by decide, by decide, _, hb, ?_⟩
  intro typeIn
  have hint : typeIn [first, second] = .int := by decide +kernel
  have hstring : typeIn [second, first] = .string := by decide +kernel
  refine ⟨hint, hstring, fun hall => ?_⟩
  have heq := hall _ _ (List.Perm.swap second first [])
  rw [hint, hstring] at heq
  exact absurd heq (by decide)

end Cool.Typing
