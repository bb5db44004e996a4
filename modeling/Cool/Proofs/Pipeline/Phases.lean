import Cool.Proofs.Document.Written
import Cool.Proofs.Pipeline.Dispatch
import Cool.Proofs.Typing.Halting

/-! The phases of a compilation and what they report. A phase that finds errors ends the analysis,
so all errors of a run come from one phase; what a run without errors reports is at most that the
program has nowhere to start. -/

namespace Cool

/-- The error that an analysis returns. -/
def Verdict.error? : Verdict → Option Pipeline.Error
  | accepted _ => none
  | halted stage errors => some (.semantic stage errors)
  | fault f => some (.fault f)

namespace Sink

/-- Errors are recorded as they are. -/
theorem items_recordAll (s : Sink) {ds : List Diagnostic} (hds : ∀ d ∈ ds, d.severity = .error) :
    (s.recordAll ds).items = s.items ++ ds := by
  induction ds generalizing s with
  | nil => exact (List.append_nil _).symm
  | cons d ds ih =>
      obtain ⟨hd, hrest⟩ := List.forall_mem_cons.mp hds
      have hsame : { d with severity := d.severity.orError } = d := by
        rw [hd]
        exact congrArg (fun v => { d with severity := v }) hd.symm
      refine (ih (s.record d) hrest).trans ?_
      rw [record, hsame, List.append_assoc]
      rfl

end Sink

namespace Pipeline

/-! ## One phase -/

/-- A failed analysis: one phase found errors, of which each is reported as an error of that phase,
and the note that it halted follows them. -/
structure HaltedWith (a : Analysis) (stage : Stage) (errors : List Diagnostic) : Prop where
  phase : stage = .classes ∨ stage = .features ∨ stage = .typecheck
  some_error : errors ≠ []
  all_errors : ∀ d ∈ errors, d.severity = .error ∧ d.stage = stage
  diagnostics : a.diagnostics = errors ++ [haltNote stage]
  verdict : a.verdict = .halted stage errors.length

theorem HaltedWith.error {a : Analysis} {stage : Stage} {errors : List Diagnostic}
    (ha : HaltedWith a stage errors) : ∃ d ∈ a.diagnostics, d.severity = .error := by
  obtain ⟨d, hd⟩ := List.exists_mem_of_ne_nil errors ha.some_error
  exact ⟨d, ha.diagnostics ▸ List.mem_append_left _ hd, (ha.all_errors d hd).1⟩

section

variable {α : Type} {diagnostic : α → Diagnostic} {stage : Stage}
variable (hseverity : ∀ r, (diagnostic r).severity = .error)

include hseverity

theorem errorCount_reports (reports : List α) :
    (({} : Sink).recordAll (reports.map diagnostic)).errorCount = reports.length := by
  rw [Sink.errorCount_recordAll _ (by simp [hseverity]), List.length_map]
  exact Nat.zero_add _

theorem hasErrors_reports {reports : List α} (hreports : reports ≠ []) :
    (({} : Sink).recordAll (reports.map diagnostic)).hasErrors = true := by
  rw [Sink.hasErrors, decide_eq_true_iff, errorCount_reports hseverity]
  exact List.length_pos_iff.mpr hreports

/-- A phase that has something to report ends the analysis. -/
theorem haltedWith_reports (hphase : stage = .classes ∨ stage = .features ∨ stage = .typecheck)
    (hstage : ∀ r, (diagnostic r).stage = stage) {reports : List α} (hreports : reports ≠ [])
    (p : Program) (log : List String) :
    HaltedWith (halt p (({} : Sink).recordAll (reports.map diagnostic)) stage log) stage
      (reports.map diagnostic) := by
  have hall : ∀ d ∈ reports.map diagnostic, d.severity = .error := by simp [hseverity]
  refine ⟨hphase, by simpa using hreports, by simp [hseverity, hstage], ?_, ?_⟩
  · simp [halt, Sink.record, Sink.items_recordAll _ hall, haltNote, Severity.orError]
  · rw [List.length_map, ← errorCount_reports hseverity]
    rfl

end

/-! ## All phases -/

/-- How the check of the types of a program that is written out ends the analysis. -/
theorem analyzeTypes_outcome (ms : Members) {p : Program} (log : List String)
    (hwritten : ∀ c ∈ p.classes, ∀ f ∈ c.features, f.isWritten = true) :
    (∃ errors, HaltedWith (analyzeTypes p ms {} log) .typecheck errors) ∨
      analyzeTypes p ms {} log =
        accept (Typing.checkProgram ms p).program ms {} (log ++ [checkedLine]) := by
  unfold analyzeTypes
  dsimp only
  rw [if_neg (by simp [Typing.checkProgram_not_halted ms hwritten])]
  by_cases hnone : (Typing.checkProgram ms p).reports = []
  · rw [hnone]
    exact .inr rfl
  · rw [if_pos (hasErrors_reports (fun _ => rfl) hnone)]
    exact .inl ⟨_, haltedWith_reports (fun _ => rfl) (.inr (.inr rfl)) (fun _ => rfl) hnone _ _⟩

/-- How the phases after the first one end the analysis where the hierarchy is valid. -/
theorem analyzeMembers_outcome {h : Hierarchy} (hvalid : h.valid = true) {p : Program}
    (log : List String) (hwritten : ∀ c ∈ p.classes, ∀ f ∈ c.features, f.isWritten = true) :
    (∃ stage errors, HaltedWith (analyzeMembers p h {} log) stage errors) ∨
      ∃ ms log', Members.build h = .ok (ms, []) ∧ analyzeMembers p h {} log =
        accept (Typing.checkProgram ms p).program ms {} log' := by
  unfold analyzeMembers
  cases hb : Members.build h with
  | error f => simp [Members.build, hvalid] at hb
  | ok built =>
      obtain ⟨ms, reports⟩ := built
      dsimp only
      by_cases hnone : reports = []
      · subst hnone
        rcases analyzeTypes_outcome ms (log ++ [membersLine ms]) hwritten with ⟨errors, hhalt⟩ | heq
        · exact .inl ⟨_, errors, hhalt⟩
        · exact .inr ⟨ms, _, rfl, heq⟩
      · rw [if_pos (hasErrors_reports (fun _ => rfl) hnone)]
        exact .inl ⟨_, _, haltedWith_reports (fun _ => rfl) (.inr (.inl rfl)) (fun _ => rfl) hnone
          _ _⟩

/-- The first phase ends the analysis of a program whose hierarchy is not valid. -/
theorem haltedWith_of_invalid {p : Program} (hvalid : (Hierarchy.build p).1.valid = false) :
    (∃ errors, HaltedWith (analyze p) .classes errors) ∧ (analyze p).log = [] := by
  have hreports : (Hierarchy.build p).2 ≠ [] := fun hnone => by
    rw [Hierarchy.build_eq_nil_iff_valid.mp hnone] at hvalid
    cases hvalid
  unfold analyze
  dsimp only
  rw [if_pos (hasErrors_reports (fun _ => rfl) hreports)]
  exact ⟨⟨_, haltedWith_reports (fun _ => rfl) (.inl rfl) (fun _ => rfl) hreports _ _⟩, rfl⟩

theorem analyze_of_valid {p : Program} (hvalid : (Hierarchy.build p).1.valid = true) :
    analyze p = analyzeMembers p (Hierarchy.build p).1 {} [classesLine (Hierarchy.build p).1] := by
  unfold analyze
  dsimp only
  rw [Hierarchy.build_eq_nil_iff_valid.mpr hvalid]
  rfl

/-- The ways in which the analysis of a program that is written out ends. -/
theorem analyze_outcome {p : Program}
    (hwritten : ∀ c ∈ p.classes, ∀ f ∈ c.features, f.isWritten = true) :
    (∃ stage errors, HaltedWith (analyze p) stage errors) ∨
      ∃ ms log, Members.build (Hierarchy.build p).1 = .ok (ms, []) ∧
        analyze p = accept (Typing.checkProgram ms p).program ms {} log := by
  cases hvalid : (Hierarchy.build p).1.valid with
  | false =>
      obtain ⟨errors, hhalt⟩ := (haltedWith_of_invalid hvalid).1
      exact .inl ⟨_, errors, hhalt⟩
  | true =>
      rw [analyze_of_valid hvalid]
      exact analyzeMembers_outcome hvalid _ hwritten

/-! ## The place to start -/

/-- Whether the class to start with declares or inherits the method to start with. -/
def HasEntry (h : Hierarchy) : Prop :=
  ∃ d, h.Inherits .entryClass d ∧ h.DeclaresMethod d .entryMethod

/-- The classes with methods are installed. -/
theorem mem_names_of_methods {ms : Members} {h : Hierarchy} (hr : h.Rooted)
    (hb : Members.build h = .ok (ms, [])) {c : Name} {e : MethodEntry} (he : e ∈ ms.methods c c) :
    c ∈ h.names := by
  by_contra hc
  have hnot : c ∉ ms.classes.map (·.cls) := by
    rw [(Members.adding_of_build hr hb).classes]
    exact fun hmem => hc ((Hierarchy.mem_topological hr).mp hmem)
  rw [Members.methods, Members.resolve, ite_self, Members.of?_eq_none hnot] at he
  cases he

/-- The methods of a class are those that it and the classes above it declare. -/
theorem hasMethod_iff {ms : Members} {h : Hierarchy} (hr : h.Rooted)
    (hb : Members.build h = .ok (ms, [])) (c x : Name) :
    ms.hasMethod c x c = true ↔ ∃ d, h.Inherits c d ∧ h.DeclaresMethod d x := by
  obtain ⟨hco, rfl⟩ := Members.coherent_of_build hr hb
  constructor
  · intro hmethod
    obtain ⟨e, he⟩ := Option.isSome_iff_exists.mp hmethod
    have hmem : e ∈ ms.methods c c := List.mem_of_find?_eq_some he
    have hname : e.name = x := by simpa using List.find?_some he
    have hnearest := hco.isNearest_definer (mem_names_of_methods hr hb hmem) e hmem
    exact ⟨e.definer, hnearest.above, hname ▸ hnearest.declares⟩
  · rintro ⟨d, hcd, decl, m, hdecl, hm, rfl⟩
    have hd : d ∈ ms.hierarchy.names := by
      obtain ⟨entry, hentry, -⟩ := Option.map_eq_some_iff.mp hdecl
      exact Hierarchy.has_iff.mp (by rw [Hierarchy.has, hentry]; rfl)
    obtain ⟨e, he, hdeclares⟩ := hco.declared_method hd hdecl hm
    -- the method has the same place in the class as above it
    obtain ⟨k, hk⟩ := List.mem_iff_getElem?.mp he
    obtain ⟨i, hi, hinterface⟩ := Members.getElem?_of_inherits hr hb hcd hk
    have hname : i.name = m.name := (congrArg Prod.fst hinterface).trans hdeclares.name
    rw [Members.hasMethod, Members.method?, List.find?_isSome]
    exact ⟨i, List.mem_of_getElem? hi, by simpa using hname⟩

theorem diagnostics_accept (p : Program) (ms : Members) (log : List String) :
    (accept p ms {} log).diagnostics =
      if ms.hasMethod .entryClass .entryMethod .entryClass then [] else [noMain p.span] := by
  unfold accept
  split <;> rfl

/-- What the analysis of a program without errors reports. -/
theorem diagnostics_of_accept {p : Program} {ms : Members} {log : List String}
    (hb : Members.build (Hierarchy.build p).1 = .ok (ms, []))
    (ha : analyze p = accept (Typing.checkProgram ms p).program ms {} log) :
    (analyze p).diagnostics = [] ∧ HasEntry (Hierarchy.build p).1 ∨
      (analyze p).diagnostics = [noMain p.span] ∧ ¬ HasEntry (Hierarchy.build p).1 := by
  have hentry : _ ↔ HasEntry (Hierarchy.build p).1 :=
    hasMethod_iff (Hierarchy.rooted_of_valid (Members.valid_of_build hb)) hb .entryClass .entryMethod
  rw [ha, diagnostics_accept, ← hentry]
  by_cases hmethod : ms.hasMethod .entryClass .entryMethod .entryClass = true
  · exact .inl ⟨if_pos hmethod, hmethod⟩
  · exact .inr ⟨if_neg hmethod, hmethod⟩

/-! ## Compilation -/

namespace Compilation

/-- The text of the module, which is empty where there is none. -/
def moduleText (c : Compilation) : String :=
  match c.result with
  | .ok text => text
  | .error _ => ""

/-- The error that a compilation returns. -/
def error? (c : Compilation) : Option Error :=
  match c.result with
  | .ok _ => none
  | .error e => some e

end Compilation

theorem format_ne_empty (m : Wat.Module) (indent : String) : m.format indent ≠ "" := by
  simp [Wat.Module.format, Sections.format, SExpr.format]

/-- A compilation returns the text of a module or an error. -/
theorem moduleText_ne_empty_iff (p : Program) (strings : Interner) (indent : String) :
    (compile p strings indent).moduleText ≠ "" ↔ (compile p strings indent).error? = none := by
  unfold compile
  dsimp only
  split
  · simp [Compilation.moduleText, Compilation.error?]
  · simp [Compilation.moduleText, Compilation.error?]
  · split
    · simp [Compilation.moduleText, Compilation.error?]
    · simp [Compilation.moduleText, Compilation.error?]
    · simp [Compilation.moduleText, Compilation.error?, format_ne_empty]

/-- A compilation reports what the analysis does, and then at most that a literal denotes no
integer. -/
theorem compile_diagnostics (p : Program) (strings : Interner) (indent : String) :
    (compile p strings indent).diagnostics = (analyze p).diagnostics ∨
      ∃ d, d.stage = .codegen ∧ d.severity = .error ∧
        (compile p strings indent).diagnostics = (analyze p).diagnostics ++ [d] := by
  unfold compile
  dsimp only
  split
  · exact .inl rfl
  · exact .inl rfl
  · split
    · exact .inr ⟨_, rfl, rfl, rfl⟩
    · exact .inl rfl
    · exact .inl rfl

/-! ## Every run -/

/-- The phases of a run over a program read from a document. The analysis fails exactly if it
reports an error. It then reports the errors of one phase, which the error it returns counts, and
the note that it halted; where the hierarchy is not valid that phase is the first. A run without
errors reports at most that there is nowhere to start. Compiling gives a module or an error, and
reports at most one more error than the analysis. -/
theorem phases_gated {text fallback : String} {p : Program}
    (hp : Document.decode text fallback = .ok p) :
    ((analyze p).verdict.error? ≠ none ↔ ∃ d ∈ (analyze p).diagnostics, d.severity = .error) ∧
    (∀ e, (analyze p).verdict.error? = some e → ∃ stage errors,
      HaltedWith (analyze p) stage errors ∧ e.message = some (stage.text ++ ": " ++
        toString errors.length ++ " error(s): static semantic errors")) ∧
    ((Hierarchy.build p).1.valid = false →
      (∃ errors, HaltedWith (analyze p) .classes errors) ∧ (analyze p).log = []) ∧
    ((analyze p).verdict.error? = none →
      (analyze p).diagnostics = [] ∧ HasEntry (Hierarchy.build p).1 ∨
        (analyze p).diagnostics = [noMain p.span] ∧ ¬ HasEntry (Hierarchy.build p).1) ∧
    ∀ strings indent,
      ((compile p strings indent).moduleText ≠ "" ↔
        (compile p strings indent).error? = none) ∧
      ((compile p strings indent).diagnostics = (analyze p).diagnostics ∨
        ∃ d, d.stage = .codegen ∧ d.severity = .error ∧
          (compile p strings indent).diagnostics = (analyze p).diagnostics ++ [d]) := by
  have hcompile := fun strings indent =>
    And.intro (moduleText_ne_empty_iff p strings indent) (compile_diagnostics p strings indent)
  rcases analyze_outcome (Document.written_decode hp) with ⟨stage, errors, hhalt⟩ | ⟨ms, log, hb, ha⟩
  · refine ⟨?_, ?_, haltedWith_of_invalid, ?_, hcompile⟩
    · simp [hhalt.verdict, Verdict.error?, hhalt.error]
    · intro e he
      rw [hhalt.verdict] at he
      cases he
      exact ⟨stage, errors, hhalt, rfl⟩
    · simp [hhalt.verdict, Verdict.error?]
  · have hreports := diagnostics_of_accept hb ha
    have hnone : (analyze p).verdict.error? = none := by rw [ha]; rfl
    refine ⟨?_, ?_, haltedWith_of_invalid, fun _ => hreports, hcompile⟩
    · rw [hnone]
      rcases hreports with ⟨hempty, -⟩ | ⟨hwarned, -⟩
      · simp [hempty]
      · simp [hwarned, noMain]
    · simp [hnone]

/-- The phase at which the analysis of the program in a text halts, and its number of errors. -/
def haltOn (text : String) : Option (Stage × Nat) :=
  match Document.decode text with
  | .error _ => none
  | .ok p =>
    match (analyze p).verdict with
    | .halted stage errors => some (stage, errors)
    | _ => none

theorem haltOn_eq_some {text : String} {stage : Stage} {errors : Nat}
    (hhalt : haltOn text = some (stage, errors)) :
    ∃ p, Document.decode text = .ok p ∧ (analyze p).verdict = .halted stage errors := by
  unfold haltOn at hhalt
  split at hhalt
  · cases hhalt
  · rename_i p hp
    split at hhalt
    · rename_i hverdict
      cases hhalt
      exact ⟨p, hp, hverdict⟩
    · cases hhalt

/-- A class with an attribute named after the receiver, one of a class that is not there, and one
whose initializer does not fit. -/
def threeMistakes : String :=
  "\x7b\"classes\":[\x7b\"name\":\"A\",\"features\":[" ++
    "\x7b\"kind\":\"attr\",\"name\":\"self\",\"type\":\"Int\"\x7d," ++
    "\x7b\"kind\":\"attr\",\"name\":\"x\",\"type\":\"B\"\x7d," ++
    "\x7b\"kind\":\"attr\",\"name\":\"y\",\"type\":\"Int\"," ++
    "\"init\":\x7b\"kind\":\"bool\",\"value\":true\x7d\x7d]\x7d]\x7d"

/-- The check of the types does not begin where features are wrong. -/
theorem phases_gated_threeMistakes : ∃ p errors, Document.decode threeMistakes = .ok p ∧
    HaltedWith (analyze p) .features errors ∧ errors.length = 2 := by
  have hhalts : haltOn threeMistakes = some (.features, 2) := by decide +kernel
  obtain ⟨p, hp, hverdict⟩ := haltOn_eq_some hhalts
  obtain ⟨stage, errors, hhalt, -⟩ := (phases_gated hp).2.1 (.semantic .features 2) (by
    rw [hverdict]
    rfl)
  have hsame := hhalt.verdict.symm.trans hverdict
  injection hsame with hstage hlength
  exact ⟨p, errors, hp, hstage ▸ hhalt, hlength⟩

end Pipeline

end Cool
