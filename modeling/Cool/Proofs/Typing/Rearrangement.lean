import Cool.Proofs.Members.Rearrangement
import Cool.Proofs.Typing.Program

/-! Checking does not see slots: members that differ in nothing else give every expression the same
types and reports. -/

namespace Cool.Typing

/-! ## Rules -/

section

variable {ms ms' : Members} (ha : ms.Alike ms') (current : Name)

include ha

theorem conforms_alike (t u : Name) :
    Context.conforms ⟨ms, current⟩ t u = Context.conforms ⟨ms', current⟩ t u :=
  ha.classes.conforms t u current

theorem join_alike (t u : Name) :
    Context.join ⟨ms, current⟩ t u = Context.join ⟨ms', current⟩ t u :=
  ha.classes.join t u current

theorem has_alike (t : Name) :
    (Context.hierarchy ⟨ms, current⟩).has t = (Context.hierarchy ⟨ms', current⟩).has t :=
  ha.classes.has t

theorem typeDefined_alike (t : Name) : ms.typeDefined t = ms'.typeDefined t := by
  rw [Members.typeDefined, Members.typeDefined, ha.classes.has]

/-- A method is found in both or in neither, and then with the same signature. -/
theorem method?_alike (t x : Name) :
    Context.method? ⟨ms, current⟩ t x = none ∧ Context.method? ⟨ms', current⟩ t x = none ∨
      ∃ m m', Context.method? ⟨ms, current⟩ t x = some m ∧
        Context.method? ⟨ms', current⟩ t x = some m' ∧ m.unslotted = m'.unslotted := by
  have hmap := ha.method? t x current
  unfold Context.method?
  cases hm : ms.method? t x current <;> cases hm' : ms'.method? t x current <;>
    simp [hm, hm'] at hmap ⊢
  exact hmap

theorem checkArguments_alike (i : Nat) (params : List Parameter) (args : List (Expr × Name)) :
    Context.checkArguments ⟨ms, current⟩ i params args =
      Context.checkArguments ⟨ms', current⟩ i params args := by
  induction params generalizing i args with
  | nil => rfl
  | cons p params ih =>
      cases args with
      | nil => rfl
      | cons arg args => simp only [Context.checkArguments, conforms_alike ha, ih]

theorem checkCall_alike {m m' : MethodEntry} (hm : m.unslotted = m'.unslotted) (owner : Name)
    (span : Span) (args : List (Expr × Name)) :
    Context.checkCall ⟨ms, current⟩ m owner span args =
      Context.checkCall ⟨ms', current⟩ m' owner span args := by
  obtain ⟨hname, hparams, -⟩ := MethodEntry.mk.inj hm
  simp only [Context.checkCall, hname, hparams, checkArguments_alike ha]

omit ha in
theorem callType_alike {m m' : MethodEntry} (hm : m.unslotted = m'.unslotted) (t : Name) :
    Context.callType m t = Context.callType m' t := by
  obtain ⟨-, -, hresult, -⟩ := MethodEntry.mk.inj hm
  rw [Context.callType, Context.callType, hresult]

theorem checkGuard_alike (span : Span) (name guard : Name) :
    Context.checkGuard ⟨ms, current⟩ span name guard =
      Context.checkGuard ⟨ms', current⟩ span name guard := by
  simp only [Context.checkGuard, has_alike ha]

theorem checkLet_alike (span : Span) (name type : Name) (init : Expr) (t : Name) :
    Context.checkLet ⟨ms, current⟩ span name type init t =
      Context.checkLet ⟨ms', current⟩ span name type init t := by
  simp only [Context.checkLet, conforms_alike ha, typeDefined_alike ha]

theorem joinAfter_alike (before : Option Name) (t : Name) :
    Context.joinAfter ⟨ms, current⟩ before t = Context.joinAfter ⟨ms', current⟩ before t := by
  cases before with
  | none => rfl
  | some u => exact join_alike ha current u t

end

/-! ## Expressions -/

mutual

theorem check_alike {ms ms' : Members} (ha : ms.Alike ms') (current : Name)
    (scope : Scope Name Name) : ∀ e : Expr,
    check ⟨ms, current⟩ scope e = check ⟨ms', current⟩ scope e
  | .missing => by rw [check, check]
  | .noExpr m => by rw [check, check]
  | .block m body => by rw [check, check, checkAll_alike ha current scope body]
  | .assign m name value => by
      rw [check, check, check_alike ha current scope value]
      simp only [conforms_alike ha]
  | .dispatch m receiver method args => by
      rw [check, check, check_alike ha current scope receiver, checkAll_alike ha current scope args]
      refine bind_congr fun r => bind_congr fun rs => ?_
      dsimp only
      split
      · rfl
      · rcases method?_alike ha current r.2 method with ⟨hm, hm'⟩ | ⟨m, m', hm, hm', hsame⟩
        · rw [hm, hm']
        · rw [hm, hm']
          simp only [checkCall_alike ha current hsame, callType_alike hsame]
  | .staticDispatch m receiver target method args => by
      rw [check, check, check_alike ha current scope receiver, checkAll_alike ha current scope args]
      simp only [conforms_alike ha, has_alike ha]
      refine bind_congr fun r => bind_congr fun rs => ?_
      rcases method?_alike ha current target method with ⟨hm, hm'⟩ | ⟨m, m', hm, hm', hsame⟩
      · rw [hm, hm']
      · rw [hm, hm']
        simp only [checkCall_alike ha current hsame, callType_alike hsame]
  | .cond m pred onTrue onFalse => by
      rw [check, check, check_alike ha current scope pred, check_alike ha current scope onTrue,
        check_alike ha current scope onFalse]
      simp only [join_alike ha]
  | .loop m pred body => by
      rw [check, check, check_alike ha current scope pred, check_alike ha current scope body]
  | .caseOf m scrutinee branches => by
      rw [check, check, check_alike ha current scope scrutinee,
        checkBranches_alike ha current scope [] none branches]
  | .letIn m name type init body => by
      rw [check, check, check_alike ha current scope init, check_alike ha current _ body]
      simp only [checkLet_alike ha]
  | .binary m op left right => by
      rw [check, check, check_alike ha current scope left, check_alike ha current scope right]
  | .unary m op operand => by rw [check, check, check_alike ha current scope operand]
  | .int m token => by rw [check, check]
  | .string m value => by rw [check, check]
  | .bool m value => by rw [check, check]
  | .new m type => by rw [check, check, has_alike ha]
  | .object m name => by rw [check, check]
termination_by structural e => e

theorem checkAll_alike {ms ms' : Members} (ha : ms.Alike ms') (current : Name)
    (scope : Scope Name Name) : ∀ es : List Expr,
    checkAll ⟨ms, current⟩ scope es = checkAll ⟨ms', current⟩ scope es
  | [] => by rw [checkAll, checkAll]
  | e :: es => by
      rw [checkAll, checkAll, check_alike ha current scope e, checkAll_alike ha current scope es]
termination_by structural es => es

theorem checkBranches_alike {ms ms' : Members} (ha : ms.Alike ms') (current : Name)
    (scope : Scope Name Name) (guards : List Name) (before : Option Name) : ∀ bs : List Branch,
    checkBranches ⟨ms, current⟩ scope guards before bs =
      checkBranches ⟨ms', current⟩ scope guards before bs
  | [] => by rw [checkBranches, checkBranches]
  | .mk span name guard body :: bs => by
      rw [checkBranches, checkBranches, check_alike ha current _ body, checkGuard_alike ha]
      simp only [joinAfter_alike ha, checkBranches_alike ha current scope _ _ bs]
termination_by structural bs => bs

end

/-! ## Programs -/

theorem checkFeature_alike {ms ms' : Members} (ha : ms.Alike ms') (current : Name)
    (scope : Scope Name Name) (f : Feature) :
    checkFeature ⟨ms, current⟩ scope f = checkFeature ⟨ms', current⟩ scope f := by
  cases f with
  | method m =>
      simp only [checkFeature, checkMethod, check_alike ha, conforms_alike ha, typeDefined_alike ha]
  | attr a => simp only [checkFeature, checkAttribute, check_alike ha, conforms_alike ha]

theorem checkClass_alike {ms ms' : Members} (ha : ms.Alike ms') (c : ClassDecl) :
    checkClass ms c = checkClass ms' c := by
  have hof := ha.of? c.name
  unfold checkClass
  cases hc : ms.of? c.name with
  | none =>
      rw [hc] at hof
      rw [Option.map_eq_none_iff.mp hof.symm]
  | some own =>
      rw [hc, Option.map_some] at hof
      obtain ⟨own', hc', hown⟩ := Option.map_eq_some_iff.mp hof.symm
      obtain ⟨-, hattributes, -⟩ := ClassMembers.mk.inj hown
      have hview : own'.attributes.map (fun a => (a.name, a.type)) =
          own.attributes.map (fun a => (a.name, a.type)) := by
        have hmap := congrArg (List.map fun a : AttributeEntry => (a.name, a.type)) hattributes
        simpa [AttributeEntry.unslotted, Function.comp_def] using hmap
      have hscope : classScope own'.attributes = classScope own.attributes := by
        rw [classScope, classScope, hview]
      have hfeature : checkFeature ⟨ms, c.name⟩ (classScope own.attributes) =
          checkFeature ⟨ms', c.name⟩ (classScope own.attributes) :=
        funext fun f => checkFeature_alike ha c.name _ f
      rw [hc']
      dsimp only
      rw [hscope, hfeature]

end Cool.Typing
