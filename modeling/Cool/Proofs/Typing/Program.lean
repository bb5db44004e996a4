import Cool.Proofs.Typing.Acceptance

/-! Acceptance of features, classes and programs. -/

namespace Cool.Typing

theorem Decides.mapM {α β : Type} {f : α → Recording β} {P : α → β → Prop}
    (hf : ∀ a, Decides (f a) (P a)) (as : List α) :
    Decides (as.mapM f) (List.Forall₂ P as) := by
  induction as with
  | nil =>
      rw [List.mapM_nil]
      refine (Decides.pure _).congr fun bs => ⟨?_, ?_⟩
      · rintro rfl
        exact .nil
      · rintro ⟨⟩
        rfl
  | cons a as ih =>
      rw [List.mapM_cons]
      refine ((hf a).bind fun b => ih.bind fun bs => .pure (b :: bs)).congr fun bs => ⟨?_, ?_⟩
      · rintro ⟨b, hb, bs, hbs, rfl⟩
        exact .cons hb hbs
      · intro h
        cases h with
        | cons hb hbs => exact ⟨_, hb, _, hbs, rfl⟩

/-- The features that checking lets pass, with their annotated trees. -/
inductive AcceptsFeature (cx : Context) (scope : Scope Name Name) : Feature → Feature → Prop where
  | method {m body t} : Accepts cx (methodScope scope m.formals) m.body (body, t) →
      (cx.members.typeDefined m.result = true → cx.conforms t m.result = true) →
      AcceptsFeature cx scope (.method m) (.method { m with body := body })
  | attr {a init t} : Accepts cx (scope.enterWith [(.self, .selfType)]) a.init (init, t) →
      init.isAbsent = true ∨ cx.conforms t a.type = true →
      AcceptsFeature cx scope (.attr a) (.attr { a with init := init })

theorem decides_checkFeature (cx : Context) (scope : Scope Name Name) (f : Feature) :
    Decides (checkFeature cx scope f) (AcceptsFeature cx scope f) := by
  cases f with
  | method m =>
      rw [checkFeature, checkMethod]
      refine (((decides_check cx (methodScope scope m.formals) m.body).bind fun r =>
        (Decides.require (!cx.members.typeDefined m.result || cx.conforms r.2 m.result) m.span
          (.methodBody r.2 m.result)).bind fun _ => .pure { m with body := r.1 }).bind fun m' =>
        .pure (Feature.method m')).congr fun f' => ⟨?_, ?_⟩
      · rintro ⟨_, ⟨⟨body, t⟩, hbody, _, hresult, rfl⟩, rfl⟩
        refine .method hbody fun hdef => ?_
        simpa [hdef] using hresult
      · intro h
        cases h with
        | @method _ body t hbody hresult =>
            refine ⟨_, ⟨(body, t), hbody, (), ?_, rfl⟩, rfl⟩
            cases hdef : cx.members.typeDefined m.result with
            | false => simp
            | true => simpa using hresult hdef
  | attr a =>
      rw [checkFeature, checkAttribute]
      refine (((decides_check cx (scope.enterWith [(.self, .selfType)]) a.init).bind fun r =>
        (Decides.require (r.1.isAbsent || cx.conforms r.2 a.type) a.span
          (.attributeInit r.2 a.type)).bind fun _ => .pure { a with init := r.1 }).bind fun a' =>
        .pure (Feature.attr a')).congr fun f' => ⟨?_, ?_⟩
      · rintro ⟨_, ⟨⟨init, t⟩, hinit, _, hfit, rfl⟩, rfl⟩
        exact .attr hinit (by simpa using hfit)
      · intro h
        cases h with
        | @attr _ init t hinit hfit =>
            exact ⟨_, ⟨(init, t), hinit, (), by simpa using hfit, rfl⟩, rfl⟩

/-- A class whose features checking lets pass. One that has no members is left as it is. -/
def AcceptsClass (ms : Members) (c c' : ClassDecl) : Prop :=
  match ms.of? c.name with
  | none => c' = c
  | some own => ∃ fs, c' = { c with features := fs } ∧
      List.Forall₂ (AcceptsFeature ⟨ms, c.name⟩ (classScope own.attributes)) c.features fs

theorem decides_checkClass (ms : Members) (c : ClassDecl) :
    Decides (checkClass ms c) (AcceptsClass ms c) := by
  unfold checkClass AcceptsClass
  cases ms.of? c.name with
  | none => exact (Decides.pure c).congr fun c' => eq_comm
  | some own =>
      refine ((Decides.mapM (decides_checkFeature ⟨ms, c.name⟩ (classScope own.attributes))
        c.features).bind fun fs => .pure { c with features := fs }).congr fun c' => ⟨?_, ?_⟩
      · rintro ⟨fs, hfs, rfl⟩
        exact ⟨fs, rfl, hfs⟩
      · rintro ⟨fs, rfl, hfs⟩
        exact ⟨fs, hfs, rfl⟩

/-- A program whose classes checking lets pass, with its annotated tree. -/
structure AcceptsProgram (ms : Members) (p p' : Program) : Prop where
  span : p'.span = p.span
  classes : List.Forall₂ (AcceptsClass ms) p.classes p'.classes

/-- Checking a program neither reports nor halts exactly if its classes are let pass. -/
theorem checkProgram_silent {ms : Members} {p : Program}
    (hreports : (checkProgram ms p).reports = []) (hhalted : (checkProgram ms p).halted = false) :
    AcceptsProgram ms p (checkProgram ms p).program := by
  have hdecides := Decides.mapM (decides_checkClass ms) p.classes
  by_cases hex : ∃ classes, List.Forall₂ (AcceptsClass ms) p.classes classes
  · obtain ⟨classes, hclasses⟩ := hex
    have hrun := hdecides.silent hclasses {} rfl
    refine ⟨rfl, ?_⟩
    simp only [checkProgram, hrun]
    exact hclasses
  · exfalso
    rcases hdecides.reported (fun cs hcs => hex ⟨cs, hcs⟩) {} rfl with hhalt | hlt
    · rw [checkProgram] at hhalted
      exact Bool.false_ne_true (hhalted.symm.trans hhalt)
    · rw [checkProgram] at hreports
      exact Nat.ne_of_gt hlt (congrArg List.length hreports)

end Cool.Typing
