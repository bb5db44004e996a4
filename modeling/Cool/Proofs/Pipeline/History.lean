import Cool.Proofs.Lowering.Numbering
import Cool.Proofs.Pipeline.Acceptance

/-! Generation does not depend on what came before: neither the texts that the shared table holds
nor earlier runs of the generator show in a module. -/

namespace Cool

namespace Lowering

open Wat

namespace Generator

/-- What can happen to a generator between two runs: a text is interned in the table that it shares,
or it is run over the literals of any program. -/
inductive Event where
  | intern (text : String)
  | run (literals : Program)

def apply (g : Generator) : Event → Generator
  | .intern text => { g with strings := g.strings.add text }
  | .run literals => (g.run literals).2

/-- The generator after a history of events. -/
def after (g : Generator) (history : List Event) : Generator :=
  history.foldl apply g

/-- Generators for the same classes, whatever their tables hold and their last runs have left. -/
structure SameClasses (g g' : Generator) : Prop where
  members : g.members = g'.members
  program : g.program = g'.program

theorem SameClasses.trans {g g' g'' : Generator} (h : g.SameClasses g') (h' : g'.SameClasses g'') :
    g.SameClasses g'' :=
  ⟨h.members.trans h'.members, h.program.trans h'.program⟩

theorem sameClasses_finish (g : Generator) : g.finish.2.SameClasses g := by
  unfold finish
  split
  · exact ⟨rfl, rfl⟩
  · exact ⟨rfl, rfl⟩

/-- An event leaves the classes of a generator alone. -/
theorem sameClasses_apply (g : Generator) (event : Event) : (g.apply event).SameClasses g := by
  cases event with
  | intern text => exact ⟨rfl, rfl⟩
  | run literals =>
      rw [apply, run]
      split
      · exact ⟨rfl, rfl⟩
      · rename_i pool hpool
        exact (sameClasses_finish _).trans ⟨rfl, rfl⟩

theorem sameClasses_after (g : Generator) (history : List Event) :
    (g.after history).SameClasses g := by
  induction history generalizing g with
  | nil => exact ⟨rfl, rfl⟩
  | cons event history ih => exact (ih (g.apply event)).trans (sameClasses_apply g event)

/-! ## Runs -/

/-- A run starts with a pool of zero, the empty string and the names of the classes. -/
theorem lists_start (g : Generator) :
    g.reset.nameClasses.pool.Lists g.strings [0] ("" :: g.order.map Name.text) :=
  (Pool.lists_seed g.strings).addClasses g.order

/-- Over pools that are alike the same module is generated. -/
theorem finish_congr {g g' : Generator} (h : g.SameClasses g') (hpool : g.pool.Alike g'.pool)
    (hprogress : g.progress = g'.progress) : g.finish.1 = g'.finish.1 := by
  have horder : g.order = g'.order := by rw [order, order, h.members]
  have hemits : g.emitClasses = g'.emitClasses := by
    unfold emitClasses
    simp only [horder, h.members, h.program, hprogress, emitClass_congr hpool]
  rw [finish, finish, hemits]
  cases g'.emitClasses with
  | error f => rfl
  | ok progress =>
      dsimp only
      rw [module, module]
      dsimp only [order] at horder ⊢
      rw [hpool.globals, horder, h.members]

/-- A run depends on nothing of the generator but its classes. -/
theorem run_congr {g g' : Generator} (h : g.SameClasses g') (literals : Program) :
    (g.run literals).1 = (g'.run literals).1 := by
  have hstart := lists_start g'
  rw [order, ← h.members] at hstart
  have hnamed : g.reset.nameClasses.SameClasses g'.reset.nameClasses := ⟨h.members, h.program⟩
  rw [run, run]
  rcases (lists_start g).collect hstart literals with ⟨e, hg, hg'⟩ | ⟨pool, pool', hg, hg', hpool⟩
  · rw [hg, hg']
  · rw [hg, hg']
    exact finish_congr ⟨h.members, h.program⟩ hpool rfl

/-- Emission that starts with no functions gives those of the module. -/
theorem functions_eq (g : Generator) (pool : Pool) :
    functions g.members pool g.program =
      (g.reset.nameClasses.withPool pool).emitClasses.map Progress.funcs := by
  have hfuncs : functions g.members pool g.program =
      (commonFuncs g.members >>= fun common =>
        (g.order.forM fun c => emitClass g.members pool c (declaredFeatures g.program c)).run
          { funcs := common } >>= fun r => .ok r.2.funcs) := rfl
  have hemits : (g.reset.nameClasses.withPool pool).emitClasses =
      (commonFuncs g.members >>= fun common =>
        (g.order.forM fun c => emitClass g.members pool c (declaredFeatures g.program c)).run
          { funcs := common } >>= fun r => .ok r.2) := rfl
  rw [hfuncs, hemits]
  cases commonFuncs g.members with
  | error f => rfl
  | ok common =>
      change (StateT.run _ _ >>= _) = Except.map _ (StateT.run _ _ >>= _)
      cases StateT.run (g.order.forM fun c =>
          emitClass g.members pool c (declaredFeatures g.program c)) { funcs := common } with
      | error f => rfl
      | ok r => rfl

/-- A run over the program of the classes gives the module of the program. -/
theorem run_eq_generate (g : Generator) :
    (g.run g.program).1 = (generate g.members g.strings g.program).map Output.module := by
  have hstart : Pool.ofProgram g.strings g.members.hierarchy.topological g.program =
      g.reset.nameClasses.pool.collect g.program := rfl
  rw [run, generate, hstart]
  cases g.reset.nameClasses.pool.collect g.program with
  | error e => rfl
  | ok pool =>
      dsimp only
      rw [functions_eq, finish]
      cases (g.reset.nameClasses.withPool pool).emitClasses with
      | error f => rfl
      | ok progress => rfl

/-- The module of a program does not depend on the table. -/
theorem generate_congr (ms : Members) (p : Program) (strings strings' : Interner) :
    (generate ms strings p).map Output.module = (generate ms strings' p).map Output.module := by
  have hrun := @run_congr ⟨ms, p, strings, { table := strings }, {}⟩
    ⟨ms, p, strings', { table := strings' }, {}⟩ ⟨rfl, rfl⟩ p
  rwa [run_eq_generate ⟨ms, p, strings, _, _⟩, run_eq_generate ⟨ms, p, strings', _, _⟩] at hrun

theorem strings_finish (g : Generator) : g.finish.2.strings = g.strings := by
  unfold finish
  split
  · rfl
  · rfl

/-- A run leaves the table of a pool that lists the names of the classes among its texts. -/
theorem exists_lists_run (g : Generator) (literals : Program) : ∃ pool ns vs,
    (g.run literals).2.strings = Pool.table pool ∧ pool.Lists g.strings ns vs ∧
      ∀ c ∈ g.order, c.text ∈ vs := by
  have hstart := lists_start g
  have hmem : ∀ c ∈ g.order, c.text ∈ "" :: g.order.map Name.text :=
    fun c hc => List.mem_cons_of_mem _ (List.mem_map_of_mem hc)
  rw [run]
  split
  · exact ⟨_, _, _, rfl, hstart, hmem⟩
  · rename_i pool hpool
    rw [Pool.collect_eq_fold] at hpool
    obtain ⟨values, -, hlists⟩ := hstart.fold hpool
    exact ⟨_, _, _, strings_finish _, hlists, fun c hc => List.mem_append_left _ (hmem c hc)⟩

/-- A run interns the names of the classes, and symbols that were handed out stay. -/
theorem find?_run (g : Generator) (literals : Program) :
    (∀ v s, g.strings.find? v = some s → (g.run literals).2.strings.find? v = some s) ∧
      ∀ c ∈ g.order, ∃ s, (g.run literals).2.strings.find? c.text = some s := by
  obtain ⟨pool, ns, vs, htable, hlists, hnames⟩ := exists_lists_run g literals
  rw [htable]
  refine ⟨hlists.table, fun c hc => ?_⟩
  have hmem := (hlists.mem_strings c.text).mpr (hnames c hc)
  have hfound := hlists.symbols _ hmem
  rw [Interner.text_intern] at hfound
  exact ⟨_, hfound⟩

end Generator

end Lowering

namespace Pipeline

open Lowering

/-- The module of an accepted program does not depend on history. Whatever the shared table of a
generator holds, whatever earlier runs have left in it, and whatever is interned and run before, the
generator gives the module; so it does when it is run twice, though the first run interns the names
of the classes; and so does the whole compilation, over every table. -/
theorem module_independent_of_history {p : Program} {ms : Members} {strings : Interner}
    {out : Output} (ha : (analyze p).verdict = .accepted ms)
    (hout : generate ms strings (analyze p).program = .ok out) :
    (∀ g : Generator, g.members = ms → g.program = (analyze p).program →
      (∀ history, ((g.after history).run (analyze p).program).1 = .ok out.module) ∧
      (∀ c ∈ ms.hierarchy.topological,
        ∃ s, (g.run (analyze p).program).2.strings.find? c.text = some s) ∧
      ((g.run (analyze p).program).2.run (analyze p).program).1 = .ok out.module) ∧
    ∀ strings' indent, (compile p strings' indent).result =
      .ok (out.module.format (defaultIndent indent)) := by
  have hmodule : ∀ strings', (generate ms strings' (analyze p).program).map Output.module =
      .ok out.module := by
    intro strings'
    rw [Generator.generate_congr ms _ strings' strings, hout]
    rfl
  refine ⟨?_, fun strings' indent => ?_⟩
  · intro g hms hp
    have hhistory : ∀ history, ((g.after history).run (analyze p).program).1 = .ok out.module := by
      intro history
      rw [Generator.run_congr (Generator.sameClasses_after g history), ← hp,
        Generator.run_eq_generate, hms, hp]
      exact hmodule g.strings
    refine ⟨hhistory, fun c hc => ?_, hhistory [.run (analyze p).program]⟩
    exact (Generator.find?_run g _).2 c (by rwa [Generator.order, hms])
  · rw [compile, ha]
    dsimp only
    have h := hmodule strings'
    cases hgen : generate ms strings' (analyze p).program with
    | error e =>
        rw [hgen] at h
        cases h
    | ok out' =>
        rw [hgen] at h
        dsimp only
        rw [Except.ok.inj h]

/-- The tree of a class `A` with an attribute `x : String <- "A"` and a method
`f() : String { let y : String <- "b" in y }`. -/
def quoting : Program :=
  let span : Span := ⟨"quoting.cl", 1⟩
  let m : Mark := { span }
  let y : Name := .named "y"
  ⟨span, [⟨span, .named "A", .object,
    [.attr ⟨span, .named "x", .string, .string m "A"⟩,
      .method ⟨span, .named "f", [], .string,
        .letIn m y .string (.string m "b") (.object m y)⟩]⟩]⟩

/-- The table that reading the program leaves where other texts were interned before. -/
def sharedStrings : Interner :=
  (quoting.intern { strings := (({} : Interner).add "z").add "b" }).strings

/-- A generator with a shared table, which has lifted functions before. -/
def worn (ms : Members) : Generator where
  members := ms
  program := (analyze quoting).program
  strings := sharedStrings
  progress := { lifted := 7 }

/-- The table that reading the program leaves gives its literals other numbers than that of a
generator with a history. -/
theorem module_independent_of_history_quoting : ∃ ms out,
    let strings := (quoting.intern {}).strings
    (analyze quoting).verdict = .accepted ms ∧
    generate ms strings (analyze quoting).program = .ok out ∧
    strings.entries = [⟨0, "A"⟩, ⟨1, "b"⟩] ∧
    sharedStrings.entries = [⟨0, "z"⟩, ⟨1, "b"⟩, ⟨2, "A"⟩] ∧
    (((worn ms).after [.intern "f", .run spelledTwice]).run (analyze quoting).program).1 =
      .ok out.module := by
  have hmodule : (analyze quoting).verdict.acceptedWith (fun ms =>
      (generate ms (quoting.intern {}).strings (analyze quoting).program).toOption.isSome) =
        true := by
    decide +kernel
  obtain ⟨ms, ha, hsome⟩ := Verdict.exists_of_acceptedWith hmodule
  cases hout : generate ms (quoting.intern {}).strings (analyze quoting).program with
  | error e =>
      rw [hout] at hsome
      cases hsome
  | ok out =>
      exact ⟨ms, out, ha, hout, by decide, by decide,
        ((module_independent_of_history ha hout).1 (worn ms) rfl rfl).1 _⟩

end Pipeline

end Cool
