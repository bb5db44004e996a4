import Cool.Proofs.Pipeline.Acceptance
import Cool.Proofs.Typing.Rearrangement

/-! The order of the classes of a program. An analysis accepts a program in every order or in none,
and what it finds out about an accepted one does not depend on the order. -/

namespace Cool

namespace Typing

/-- A run decides one property only. -/
theorem Decides.unique {α : Type} {x : Recording α} {P Q : α → Prop} (hp : Decides x P)
    (hq : Decides x Q) {a : α} (ha : P a) : Q a := by
  have hrun := hp.silent ha {} rfl
  by_cases hex : ∃ b, Q b
  · obtain ⟨b, hb⟩ := hex
    have hsame := (Prod.mk.inj (hrun.symm.trans (hq.silent hb {} rfl))).1
    exact hsame ▸ hb
  · rcases hq.reported (fun b hb => hex ⟨b, hb⟩) {} rfl with hhalt | hlt
    · rw [hrun] at hhalt
      cases hhalt
    · rw [hrun] at hlt
      exact absurd hlt (Nat.lt_irrefl _)

theorem checkProgram_of_accepts {ms : Members} {p p' : Program} (hp : AcceptsProgram ms p p') :
    checkProgram ms p = ⟨p', [], false⟩ := by
  have hrun := (Decides.mapM (decides_checkClass ms) p.classes).silent hp.classes {} rfl
  obtain ⟨span, classes⟩ := p'
  have hspan : span = p.span := hp.span
  simp only [checkProgram, hrun, hspan]

/-- What is let pass in one order of the classes is let pass in every other, with the same types. -/
theorem AcceptsProgram.perm {ms ms' : Members} (ha : ms.Alike ms') {p p' q : Program}
    (hspan : p'.span = p.span) (hperm : p'.classes.Perm p.classes) (hp : AcceptsProgram ms p q) :
    ∃ q', AcceptsProgram ms' p' q' ∧ q'.classes.Perm q.classes := by
  obtain ⟨classes, hclasses, hsame⟩ := List.perm_comp_forall₂ hperm hp.classes
  refine ⟨⟨p.span, classes⟩, ⟨hspan.symm, hclasses.imp fun c c' haccepts => ?_⟩, hsame⟩
  have hdecides := decides_checkClass ms' c
  rw [← checkClass_alike ha] at hdecides
  exact (decides_checkClass ms c).unique hdecides haccepts

end Typing

namespace Pipeline

open Typing (AcceptsProgram)

theorem analyze_of_accepts {p p' : Program} {ms : Members}
    (hb : Members.build (Hierarchy.build p).1 = .ok (ms, [])) (hp : AcceptsProgram ms p p') :
    (analyze p).verdict = .accepted ms ∧ (analyze p).program = p' := by
  have hreports := Hierarchy.build_eq_nil_iff_valid.mpr (Members.valid_of_build hb)
  have hchecked := Typing.checkProgram_of_accepts hp
  generalize hbuild : Hierarchy.build p = built at hb hreports
  obtain ⟨h, reports⟩ := built
  dsimp only at hb hreports
  subst hreports
  simp [analyze, analyzeMembers, analyzeTypes, accept, hbuild, hb, hchecked, Sink.recordAll,
    Sink.hasErrors, Sink.errorCount]

/-- What two analyses of the same classes have in common: the order of types, the members of every
class up to their slots, and the classes with all their types. -/
structure Agrees (ms ms' : Members) (q q' : Program) : Prop where
  names : ∀ c, c ∈ ms.hierarchy.names ↔ c ∈ ms'.hierarchy.names
  conforms : ∀ t u current, ms.hierarchy.conforms t u current = ms'.hierarchy.conforms t u current
  join : ∀ t u current, ms.hierarchy.join t u current = ms'.hierarchy.join t u current
  depth : ∀ c, ms.hierarchy.depth c = ms'.hierarchy.depth c
  attributes : ∀ c current, (ms.attributes c current).map (·.unslotted) =
    (ms'.attributes c current).map (·.unslotted)
  methods : ∀ c current, (ms.methods c current).map (·.unslotted) =
    (ms'.methods c current).map (·.unslotted)
  classes : q'.classes.Perm q.classes
  class? : ∀ c, q.class? c = q'.class? c

/-- Programs with the same classes up to their order and the expressions in them have members that
are alike. -/
theorem members_of_perm {p p' : Program} {ms : Members}
    (hperm : (p.classes.map (·.outline)).Perm (p'.classes.map (·.outline)))
    (hb : Members.build (Hierarchy.build p).1 = .ok (ms, [])) :
    ∃ ms', Members.build (Hierarchy.build p').1 = .ok (ms', []) ∧ ms.Alike ms' := by
  have hv := Members.valid_of_build hb
  obtain ⟨hv', hsame⟩ := Hierarchy.build_of_perm hperm hv
  have hr := Hierarchy.rooted_of_valid hv
  have hr' := Hierarchy.rooted_of_valid hv'
  cases hb' : Members.build (Hierarchy.build p').1 with
  | error fault => simp [Members.build, hv'] at hb'
  | ok built =>
      obtain ⟨ms', reports'⟩ := built
      obtain ⟨halike, hreports⟩ := Members.alike_of_build hr hr' hb hb' hsame
      exact ⟨ms', by rw [hreports rfl], halike⟩

theorem accepts_of_perm (p p' : Program) (hspan : p'.span = p.span)
    (hperm : p'.classes.Perm p.classes) {ms : Members} (ha : (analyze p).verdict = .accepted ms) :
    ∃ ms', (analyze p').verdict = .accepted ms' ∧
      Agrees ms ms' (analyze p).program (analyze p').program := by
  obtain ⟨hb, hp⟩ := analyze_accepted ha
  obtain ⟨ms', hb', halike⟩ := members_of_perm (hperm.symm.map _) hb
  obtain ⟨q', hp', hclasses⟩ := hp.perm halike hspan hperm
  obtain ⟨hverdict, hprogram⟩ := analyze_of_accepts hb' hp'
  refine ⟨ms', hverdict, ?_⟩
  rw [hprogram]
  have hs := halike.classes
  refine ⟨fun c => hs.mem_names, hs.conforms, hs.join, hs.depth, halike.attributes,
    halike.methods, hclasses, fun c => ?_⟩
  refine find?_eq_of_perm hclasses.symm ?_ c
  have hv := Members.valid_of_build hb
  have hnodup := (Hierarchy.rooted_of_valid hv).names_nodup
  rw [Hierarchy.names_build hv, List.map_append] at hnodup
  rw [classNames_eq hp.classes]
  exact (List.nodup_append.mp hnodup).2.1

/-- Whether a program is accepted does not depend on the order of its classes, and neither does what
is found out about an accepted one. -/
theorem analysis_independent_of_order {p : Program} {classes : List ClassDecl}
    (hperm : classes.Perm p.classes) :
    let p' : Program := { p with classes := classes }
    ((∃ ms, (analyze p).verdict = .accepted ms) ↔ ∃ ms', (analyze p').verdict = .accepted ms') ∧
      ∀ ms ms', (analyze p).verdict = .accepted ms → (analyze p').verdict = .accepted ms' →
        Agrees ms ms' (analyze p).program (analyze p').program := by
  intro p'
  refine ⟨⟨?_, ?_⟩, ?_⟩
  · rintro ⟨ms, ha⟩
    obtain ⟨ms', ha', -⟩ := accepts_of_perm p p' rfl hperm ha
    exact ⟨ms', ha'⟩
  · rintro ⟨ms', ha'⟩
    obtain ⟨ms, ha, -⟩ := accepts_of_perm p' p rfl hperm.symm ha'
    exact ⟨ms, ha⟩
  · intro ms ms' ha ha'
    obtain ⟨ms'', ha'', hagrees⟩ := accepts_of_perm p p' rfl hperm ha
    rw [ha'] at ha''
    cases ha''
    exact hagrees

/-- The tree of `class B inherits A { f() : A { new B }; };`. -/
def heirFirst : ClassDecl :=
  let span : Span := ⟨"order.cl", 1⟩
  ⟨span, .named "B", .named "A",
    [.method ⟨span, .named "f", [], .named "A", .new { span } (.named "B")⟩]⟩

/-- The tree of `class A { x : A; };`. -/
def ancestorSecond : ClassDecl :=
  let span : Span := ⟨"order.cl", 2⟩
  ⟨span, .named "A", .object, [.attr ⟨span, .named "x", .named "A", .noExpr { span }⟩]⟩

theorem analysis_of_heirFirst :
    let span : Span := ⟨"order.cl", 1⟩
    ∃ ms ms', (analyze ⟨span, [heirFirst, ancestorSecond]⟩).verdict = .accepted ms ∧
      (analyze ⟨span, [ancestorSecond, heirFirst]⟩).verdict = .accepted ms' ∧
      Agrees ms ms' (analyze ⟨span, [heirFirst, ancestorSecond]⟩).program
        (analyze ⟨span, [ancestorSecond, heirFirst]⟩).program := by
  intro span
  have hperm : [ancestorSecond, heirFirst].Perm [heirFirst, ancestorSecond] := .swap _ _ _
  obtain ⟨hiff, hagrees⟩ :=
    analysis_independent_of_order (p := ⟨span, [heirFirst, ancestorSecond]⟩) hperm
  have haccepts : (analyze ⟨span, [heirFirst, ancestorSecond]⟩).verdict.acceptedWith
      (fun _ => true) = true := by
    decide +kernel
  obtain ⟨ms, ha, -⟩ := Verdict.exists_of_acceptedWith haccepts
  obtain ⟨ms', ha'⟩ := hiff.mp ⟨ms, ha⟩
  exact ⟨ms, ms', ha, ha', hagrees ms ms' ha ha'⟩

end Pipeline

end Cool
