import Cool.Document.Decode
import Cool.Proofs.Lowering.Emission

/-! How a compilation ends once a program is accepted: with a module, with a literal that denotes no
integer, or with a fault. -/

namespace Cool.Pipeline

open Lowering (FeatureNoCode Pool generate functions)

/-- Whether every integer literal of a program denotes an integer. -/
def LiteralsDenote (p : Program) : Prop :=
  ∀ n ∈ p.nodes, Pool.Denotes n

/-- Whether a feature of a program has no code. -/
def HasNoCode (ms : Members) (p : Program) : Prop :=
  ∃ c ∈ p.classes, ∃ f ∈ c.features, FeatureNoCode ⟨ms, c.name⟩ f

section

variable {p p' : Program} {ms : Members}

theorem generate_constants (ms : Members) (strings : Interner) (hnot : ¬ LiteralsDenote p') :
    ∃ e, generate ms strings p' = .error (.constants e) := by
  cases hpool : Pool.ofProgram strings ms.hierarchy.topological p' with
  | error e => exact ⟨e, by simp only [generate, hpool]⟩
  | ok pool => exact absurd (Pool.exists_ofProgram_iff.mp ⟨pool, hpool⟩) hnot

/-- Generating the module of an accepted program whose literals denote integers. -/
theorem generate_denoted (strings : Interner) (h : Analyzed p ms p')
    (hliterals : LiteralsDenote p') :
    (¬ HasNoCode ms p' ∧ ∃ out, generate ms strings p' = .ok out) ∨
      (HasNoCode ms p' ∧ ∃ f, generate ms strings p' = .error (.fault f)) := by
  have hpooled : ∃ pool, Pool.ofProgram strings ms.hierarchy.topological p' = .ok pool :=
    Pool.exists_ofProgram_iff.mpr hliterals
  obtain ⟨pool, hpool⟩ := hpooled
  have hfunctions := Lowering.exists_functions_iff h (Pool.serves_of_ofProgram hpool)
  have hnone : (∀ d ∈ p'.classes, ∀ f ∈ d.features, ¬ FeatureNoCode ⟨ms, d.name⟩ f) ↔
      ¬ HasNoCode ms p' := by
    simp [HasNoCode]
  rw [hnone] at hfunctions
  cases hfs : functions ms pool p' with
  | ok fs =>
      refine Or.inl ⟨hfunctions.mp ⟨fs, hfs⟩, ?_⟩
      simp only [generate, hpool, hfs, Except.ok.injEq, exists_eq']
  | error f =>
      refine Or.inr ⟨?_, f, by simp only [generate, hpool, hfs]⟩
      by_contra hcode
      obtain ⟨fs, hok⟩ := hfunctions.mpr hcode
      cases hok.symm.trans hfs

end

/-- The end of the compilation of an accepted program. There is no module where a literal denotes
no integer, which is reported, and where a feature has no code, which is a fault. -/
theorem compile_outcome {indent : String} {strings : Interner} {p : Program} {ms : Members}
    (ha : (analyze p).verdict = .accepted ms) :
    ((∃ m, (compile p strings indent).result = .ok m) ↔
      LiteralsDenote (analyze p).program ∧ ¬ HasNoCode ms (analyze p).program) ∧
    ((∃ e, (compile p strings indent).result = .error (.codegen e)) ↔
      ¬ LiteralsDenote (analyze p).program) ∧
    ((∃ f, (compile p strings indent).result = .error (.fault f)) ↔
      LiteralsDenote (analyze p).program ∧ HasNoCode ms (analyze p).program) := by
  have h := analyzed_of_accepted ha
  unfold compile
  simp only [ha]
  by_cases hliterals : LiteralsDenote (analyze p).program
  · rcases generate_denoted strings h hliterals with ⟨hcode, out, hout⟩ | ⟨hcode, f, hf⟩
    · simp [hout, hliterals, hcode]
    · simp [hf, hliterals, hcode]
  · obtain ⟨e, he⟩ := generate_constants ms strings hliterals
    simp [he, hliterals]

/-- Whether a text describes a program that is accepted and whose compilation faults. -/
def faultsOn (text : String) : Bool :=
  match Document.decode text with
  | .error _ => false
  | .ok p =>
    match (analyze p).verdict, (compile p {} "").result with
    | .accepted _, .error (.fault _) => true
    | _, _ => false

theorem faultsOn_iff {text : String} : faultsOn text = true ↔
    ∃ p ms f, Document.decode text = .ok p ∧ (analyze p).verdict = .accepted ms ∧
      (compile p {} "").result = .error (.fault f) := by
  unfold faultsOn
  split
  · rename_i e he
    simp [he]
  · rename_i p hp
    split
    · rename_i ms f ha hf
      simp [hp, ha, hf]
    · rename_i hnot
      refine ⟨nofun, ?_⟩
      rintro ⟨q, ms, f, hq, ha, hf⟩
      cases hp.symm.trans hq
      exact absurd ha fun ha => hnot ms f ha hf

/-- A class with an attribute that is initialized by a test of nothing. -/
def emptyTestText : String :=
  "\x7b\"classes\":[\x7b\"name\":\"A\",\"features\":[\x7b\"kind\":\"attr\",\"name\":\"x\"," ++
    "\"type\":\"Bool\",\"init\":\x7b\"kind\":\"isvoid\",\"expr\":\x7b\"kind\":\"no_expr\"" ++
    "\x7d\x7d\x7d]\x7d]\x7d"

theorem compile_outcome_emptyTest : ∃ p ms, Document.decode emptyTestText = .ok p ∧
    (analyze p).verdict = .accepted ms ∧ LiteralsDenote (analyze p).program ∧
    HasNoCode ms (analyze p).program ∧ ∃ f, (compile p {} "").result = .error (.fault f) := by
  have hfaults : faultsOn emptyTestText = true := by decide +kernel
  obtain ⟨p, ms, f, hp, ha, hf⟩ := faultsOn_iff.mp hfaults
  obtain ⟨hliterals, hcode⟩ := (compile_outcome ha).2.2.mp ⟨f, hf⟩
  exact ⟨p, ms, hp, ha, hliterals, hcode, f, hf⟩

end Cool.Pipeline
