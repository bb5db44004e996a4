import Cool.Proofs.Lowering.Closed
import Cool.Proofs.Lowering.Completeness
import Cool.Proofs.Pipeline.ValidCode

/-! The module of a program is closed. A program that has a module is complete, so the functions of
its classes are valid; valid functions use defined names only, and so does the rest of the module. -/

namespace Cool.Pipeline

open Lowering Wat

/-- The module of an accepted program whose names are identifiers, where there is one, has distinct
names in each of its sections and among its exports, and defines every name it uses. -/
theorem module_closed {p : Program} {ms : Members} {strings : Interner} {out : Output}
    (ha : (analyze p).verdict = .accepted ms) (hnamed : ∀ n ∈ p.nodes, n.isNamed = true)
    (hout : generate ms strings (analyze p).program = .ok out) :
    out.module.NamesDistinct ∧ out.module.exportNames.Nodup ∧ out.module.Closed := by
  have h := analyzed_of_accepted ha
  have hms := named_of_analyzed h hnamed
  obtain ⟨pool, common, s, hpool, hcommon, hemits, heq⟩ := generate_eq_ok hout
  have hdistinct := namesDistinct_moduleOf h hms (Pool.serves_of_ofProgram hpool).ints_nodup
    hcommon hemits
  rw [heq]
  exact ⟨hdistinct, exportNames_nodup h hms hcommon hemits hdistinct,
    moduleOf_closed h (regular_of_accepted ha hnamed) hcommon hemits
      (provides_moduleOf h hcommon hemits)
      (emitted_valid ha hnamed (hemits.isComplete h) hcommon hemits)⟩

theorem module_closed_lifting : ∃ ms out, (analyze lifting).verdict = .accepted ms ∧
    generate ms {} (analyze lifting).program = .ok out ∧
    out.module.NamesDistinct ∧ out.module.exportNames.Nodup ∧ out.module.Closed := by
  have hmodule : (analyze lifting).verdict.acceptedWith (fun ms =>
      (generate ms {} (analyze lifting).program).toOption.isSome) = true := by
    decide +kernel
  obtain ⟨ms, ha, hsome⟩ := Verdict.exists_of_acceptedWith hmodule
  cases hout : generate ms {} (analyze lifting).program with
  | error e =>
      rw [hout] at hsome
      cases hsome
  | ok out => exact ⟨ms, out, ha, hout, module_closed ha (by decide +kernel) hout⟩

end Cool.Pipeline
