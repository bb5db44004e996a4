import Cool.Proofs.Wat.Execution

/-! How code ends that tests the types of objects and throws exceptions. An exception leaves every
block and every call it is thrown in. -/

namespace Cool.Wat

/-- How code ends: it goes on or leaves to a label, or it throws an exception with some values. -/
inductive Ending where
  | outcome (o : Outcome)
  | thrown (tag : String) (values : List Val)

namespace Ending

/-- The code goes on with what follows. -/
abbrev next (c : State) : Ending :=
  outcome (.next c)

/-- The ending of a body that ran on a stack of its own, on the stack around it. -/
def onto (rest : List Val) : Ending → Ending
  | outcome o => outcome (o.onto rest)
  | thrown tag values => thrown tag values

/-- The ending of a block. -/
def leaving (label : String) (results : Nat) (rest : List Val) : Ending → Ending
  | outcome o => outcome (o.leaving label results rest)
  | thrown tag values => thrown tag values

end Ending

/-- The types of the values that an exception with a tag carries. -/
def Module.tag? (m : Module) (x : String) : Option (List ValType) :=
  m.imports.findSome? fun
    | .tag _ id params => if id = x then some params else none
    | .func _ _ _ => none

mutual

/-- What an instruction does once its operands are on the stack. -/
inductive Performs (m : Module) : Op → State → Ending → Prop where
  | run {op c c'} : op.run m c = some c' → Performs m op c (.next c')
  | cast {t μ v stack} : m.Passes μ.store v t →
      Performs m (.refCast t) ⟨μ, v :: stack⟩ (.next ⟨μ, v :: stack⟩)
  | passed {t μ v stack} : m.Passes μ.store v t →
      Performs m (.refTest t) ⟨μ, v :: stack⟩ (.next ⟨μ, .i32 1 :: stack⟩)
  | failed {t μ v stack} : ¬ m.Passes μ.store v t →
      Performs m (.refTest t) ⟨μ, v :: stack⟩ (.next ⟨μ, .i32 0 :: stack⟩)
  | throw {tag params values c rest} : m.tag? tag = some params →
      c.stack = values.reverse ++ rest → values.length = params.length →
      Performs m (.throw tag) c (.thrown tag values)
  | returned {name f args rest c μ left} : m.definitions name = [f] →
      c.stack = args.reverse ++ rest → args.length = f.params.length →
      FinishesAll m f.body ⟨⟨c.store, f.entry args⟩, []⟩ (.next ⟨μ, left⟩) →
      left.length = f.results.length →
      Performs m (.call name) c (.next ⟨⟨μ.store, c.locals⟩, left ++ rest⟩)
  | rethrown {name f args rest c tag values} : m.definitions name = [f] →
      c.stack = args.reverse ++ rest → args.length = f.params.length →
      FinishesAll m f.body ⟨⟨c.store, f.entry args⟩, []⟩ (.thrown tag values) →
      Performs m (.call name) c (.thrown tag values)
  | br {l c} : Performs m (.br l) c (.outcome (.branch l c))
  | brIf {l n μ stack} : Performs m (.brIf l) ⟨μ, .i32 n :: stack⟩
      (.outcome (if n = 0 then .next ⟨μ, stack⟩ else .branch l ⟨μ, stack⟩))

inductive Finishes (m : Module) : Instr → State → Ending → Prop where
  | plain {op operands c c₁ e} : FinishesAll m operands c (.next c₁) → Performs m op c₁ e →
      Finishes m (.plain op operands) c e
  | operand {op operands c e} : FinishesAll m operands c e → (∀ c', e ≠ .next c') →
      Finishes m (.plain op operands) c e
  | whenTrue {test body c μ n rest e} : Finishes m test c (.next ⟨μ, .i32 n :: rest⟩) → n ≠ 0 →
      FinishesAll m body ⟨μ, []⟩ e → Finishes m (.whenTrue test body) c (e.onto rest)
  | whenFalse {test body c μ rest} : Finishes m test c (.next ⟨μ, .i32 0 :: rest⟩) →
      Finishes m (.whenTrue test body) c (.next ⟨μ, rest⟩)
  | ifElse {t onTrue onFalse μ n rest e} :
      FinishesAll m (if n = 0 then onFalse else onTrue) ⟨μ, []⟩ e →
      Finishes m (.ifElse t onTrue onFalse) ⟨μ, .i32 n :: rest⟩ (e.onto rest)
  | block {l results body μ rest e} : FinishesAll m body ⟨μ, []⟩ e →
      Finishes m (.block l results body) ⟨μ, rest⟩ (e.leaving l results.length rest)
  | loop {l body μ rest e} : FinishesAll m body ⟨μ, []⟩ e →
      (∀ c, e ≠ .outcome (.branch l c)) → Finishes m (.loop l body) ⟨μ, rest⟩ (e.onto rest)
  | again {l body μ rest c e} : FinishesAll m body ⟨μ, []⟩ (.outcome (.branch l c)) →
      Finishes m (.loop l body) ⟨c.toMemory, rest⟩ e → Finishes m (.loop l body) ⟨μ, rest⟩ e

/-- Instructions one after the other, up to one that leaves or throws. -/
inductive FinishesAll (m : Module) : List Instr → State → Ending → Prop where
  | nil {c} : FinishesAll m [] c (.next c)
  | cons {i is c c₁ e} : Finishes m i c (.next c₁) → FinishesAll m is c₁ e →
      FinishesAll m (i :: is) c e
  | stop {i is c e} : Finishes m i c e → (∀ c', e ≠ .next c') → FinishesAll m (i :: is) c e

end

section

variable {m : Module}

/-! ## Code without tests and exceptions -/

mutual

theorem Acts.performs : ∀ {op : Op} {c : State} {o : Outcome},
    Acts m op c o → Performs m op c (.outcome o)
  | _, _, _, .run h => .run h
  | _, _, _, .cast h => .cast h
  | _, _, _, .call hf hstack hlength hbody hleft =>
      .returned hf hstack hlength hbody.finishes hleft
  | _, _, _, .br => .br
  | _, _, _, .brIf => .brIf

theorem Executes.finishes : ∀ {i : Instr} {c : State} {o : Outcome},
    Executes m i c o → Finishes m i c (.outcome o)
  | _, _, _, .plain hops hact => .plain hops.finishes hact.performs
  | _, _, _, .operand hops => .operand hops.finishes (fun _ => nofun)
  | _, _, _, .ifElse hbody => .ifElse hbody.finishes
  | _, _, _, .block hbody => .block hbody.finishes
  | _, _, _, .loop hbody hleaves =>
      .loop hbody.finishes fun c heq => hleaves c (Ending.outcome.inj heq)
  | _, _, _, .again hbody hrest => .again hbody.finishes hrest.finishes

theorem ExecutesAll.finishes : ∀ {is : List Instr} {c : State} {o : Outcome},
    ExecutesAll m is c o → FinishesAll m is c (.outcome o)
  | _, _, _, .nil => .nil
  | _, _, _, .cons hi his => .cons hi.finishes his.finishes
  | _, _, _, .leave hi => .stop hi.finishes (fun _ => nofun)

end

/-! ## Determinism -/

theorem args_unique {stack args args' rest rest' : List Val} {n : Nat}
    (h : stack = args.reverse ++ rest) (h' : stack = args'.reverse ++ rest')
    (hn : args.length = n) (hn' : args'.length = n) : args = args' ∧ rest = rest' := by
  obtain ⟨hargs, hrest⟩ := List.append_inj (h.symm.trans h')
    (by rw [List.length_reverse, List.length_reverse, hn, hn'])
  exact ⟨List.reverse_inj.mp hargs, hrest⟩

mutual

theorem Performs.unique : ∀ {op : Op} {c : State} {e e' : Ending},
    Performs m op c e → Performs m op c e' → e = e'
  | _, _, _, _, .run h, h' => by
      cases h' with
      | run h' => rw [Option.some.inj (h.symm.trans h')]
      | cast | returned | rethrown | br | brIf => cases (run_of_isControl rfl _).symm.trans h
      | passed | failed | throw => cases h
  | _, _, _, _, .cast _, h' => by
      cases h' with
      | run h => cases (run_of_isControl rfl _).symm.trans h
      | cast => rfl
  | _, _, _, _, .passed h, h' => by
      cases h' with
      | run h => cases h
      | passed => rfl
      | failed hnot => exact absurd h hnot
  | _, _, _, _, .failed hnot, h' => by
      cases h' with
      | run h => cases h
      | passed h => exact absurd h hnot
      | failed => rfl
  | _, _, _, _, .throw htag hstack hlength, h' => by
      cases h' with
      | run h => cases h
      | throw htag' hstack' hlength' =>
          cases htag.symm.trans htag'
          obtain ⟨rfl, -⟩ := args_unique hstack hstack' hlength hlength'
          rfl
  | _, _, _, _, .returned hf hstack hlength hbody _, h' => by
      cases h' with
      | run h => cases (run_of_isControl rfl _).symm.trans h
      | returned hf' hstack' hlength' hbody' _ =>
          cases hf.symm.trans hf'
          obtain ⟨rfl, rfl⟩ := args_unique hstack hstack' hlength hlength'
          cases hbody.unique hbody'
          rfl
      | rethrown hf' hstack' hlength' hbody' =>
          cases hf.symm.trans hf'
          obtain ⟨rfl, rfl⟩ := args_unique hstack hstack' hlength hlength'
          cases hbody.unique hbody'
  | _, _, _, _, .rethrown hf hstack hlength hbody, h' => by
      cases h' with
      | run h => cases (run_of_isControl rfl _).symm.trans h
      | returned hf' hstack' hlength' hbody' _ =>
          cases hf.symm.trans hf'
          obtain ⟨rfl, rfl⟩ := args_unique hstack hstack' hlength hlength'
          cases hbody.unique hbody'
      | rethrown hf' hstack' hlength' hbody' =>
          cases hf.symm.trans hf'
          obtain ⟨rfl, rfl⟩ := args_unique hstack hstack' hlength hlength'
          cases hbody.unique hbody'
          rfl
  | _, _, _, _, .br, h' => by
      cases h' with
      | run h => cases (run_of_isControl rfl _).symm.trans h
      | br => rfl
  | _, _, _, _, .brIf, h' => by
      cases h' with
      | run h => cases (run_of_isControl rfl _).symm.trans h
      | brIf => rfl

theorem Finishes.unique : ∀ {i : Instr} {c : State} {e e' : Ending},
    Finishes m i c e → Finishes m i c e' → e = e'
  | _, _, _, _, .plain hops hact, h' => by
      cases h' with
      | plain hops' hact' =>
          cases hops.unique hops'
          exact hact.unique hact'
      | operand hops' hstop => exact absurd (hops.unique hops').symm (hstop _)
  | _, _, _, _, .operand hops hstop, h' => by
      cases h' with
      | plain hops' _ => exact absurd (hops.unique hops') (hstop _)
      | operand hops' _ => exact hops.unique hops'
  | _, _, _, _, .whenTrue htest hn hbody, h' => by
      cases h' with
      | whenTrue htest' _ hbody' =>
          cases htest.unique htest'
          rw [hbody.unique hbody']
      | whenFalse htest' =>
          cases htest.unique htest'
          exact absurd rfl hn
  | _, _, _, _, .whenFalse htest, h' => by
      cases h' with
      | whenTrue htest' hn _ =>
          cases htest.unique htest'
          exact absurd rfl hn
      | whenFalse htest' =>
          cases htest.unique htest'
          rfl
  | _, _, _, _, .ifElse hbody, h' => by
      cases h' with
      | ifElse hbody' => rw [hbody.unique hbody']
  | _, _, _, _, .block hbody, h' => by
      cases h' with
      | block hbody' => rw [hbody.unique hbody']
  | _, _, _, _, .loop hbody hleaves, h' => by
      cases h' with
      | loop hbody' _ => rw [hbody.unique hbody']
      | again hbody' _ => exact absurd (hbody.unique hbody') (hleaves _)
  | _, _, _, _, .again hbody hrest, h' => by
      cases h' with
      | loop hbody' hleaves => exact absurd (hbody.unique hbody').symm (hleaves _)
      | again hbody' hrest' =>
          cases hbody.unique hbody'
          exact hrest.unique hrest'

theorem FinishesAll.unique : ∀ {is : List Instr} {c : State} {e e' : Ending},
    FinishesAll m is c e → FinishesAll m is c e' → e = e'
  | _, _, _, _, .nil, h' => by
      cases h'
      rfl
  | _, _, _, _, .cons hi his, h' => by
      cases h' with
      | cons hi' his' =>
          cases hi.unique hi'
          exact his.unique his'
      | stop hi' hstop => exact absurd (hi.unique hi').symm (hstop _)
  | _, _, _, _, .stop hi hstop, h' => by
      cases h' with
      | cons hi' _ => exact absurd (hi.unique hi') (hstop _)
      | stop hi' _ => exact hi.unique hi'

end

/-! ## Locals -/

/-- Where code goes on or leaves to, a local is there. -/
def Ending.Has (z : String) : Ending → Prop
  | outcome (.next c) => (c.locals z).isSome
  | outcome (.branch _ c) => (c.locals z).isSome
  | thrown _ _ => True

theorem Ending.Has.onto {z : String} {e : Ending} (he : e.Has z) (rest : List Val) :
    (e.onto rest).Has z := by
  cases e with
  | thrown tag values => trivial
  | outcome o => cases o <;> exact he

theorem Ending.Has.leaving {z : String} {e : Ending} (he : e.Has z) (l : String) (results : Nat)
    (rest : List Val) : (e.leaving l results rest).Has z := by
  cases e with
  | thrown tag values => trivial
  | outcome o =>
      cases o with
      | next c => exact he
      | branch l' c =>
          rw [Ending.leaving, Outcome.leaving]
          split <;> exact he

theorem Op.isSome_run {op : Op} {c c' : State} (h : op.run m c = some c') {z : String}
    (hz : (c.locals z).isSome) : (c'.locals z).isSome := by
  rcases Op.run_memory h with heq | ⟨x, v, heq⟩ | ⟨o, heq⟩
  · rw [heq]
    exact hz
  · rw [heq]
    exact Memory.isSome_set hz x v
  · rw [heq]
    exact hz

mutual

/-- Code loses no local. -/
theorem Performs.keeps {z : String} : ∀ {op : Op} {c : State} {e : Ending},
    Performs m op c e → (c.locals z).isSome → e.Has z
  | _, _, _, .run h, hz => Op.isSome_run h hz
  | _, _, _, .cast _, hz => hz
  | _, _, _, .passed _, hz => hz
  | _, _, _, .failed _, hz => hz
  | _, _, _, .throw _ _ _, _ => trivial
  | _, _, _, .returned _ _ _ _ _, hz => hz
  | _, _, _, .rethrown _ _ _ _, _ => trivial
  | _, _, _, .br, hz => hz
  | _, _, _, .brIf, hz => by
      split <;> exact hz

theorem Finishes.keeps {z : String} : ∀ {i : Instr} {c : State} {e : Ending},
    Finishes m i c e → (c.locals z).isSome → e.Has z
  | _, _, _, .plain hops hact, hz => hact.keeps (hops.keeps hz)
  | _, _, _, .operand hops _, hz => hops.keeps hz
  | _, _, _, .whenTrue htest _ hbody, hz =>
      (hbody.keeps (c := ⟨_, []⟩) (htest.keeps hz)).onto _
  | _, _, _, .whenFalse htest, hz => htest.keeps hz
  | _, _, _, .ifElse hbody, hz => (hbody.keeps hz).onto _
  | _, _, _, .block hbody, hz => (hbody.keeps hz).leaving _ _ _
  | _, _, _, .loop hbody _, hz => (hbody.keeps hz).onto _
  | _, _, _, .again hbody hrest, hz => hrest.keeps (hbody.keeps (c := ⟨_, []⟩) hz)

theorem FinishesAll.keeps {z : String} : ∀ {is : List Instr} {c : State} {e : Ending},
    FinishesAll m is c e → (c.locals z).isSome → e.Has z
  | _, _, _, .nil, hz => hz
  | _, _, _, .cons hi his, hz => his.keeps (hi.keeps hz)
  | _, _, _, .stop hi _, hz => hi.keeps hz

end

/-- The parameters of a function are among its locals when it is called. -/
theorem Func.isSome_entry {f : Func} {args : List Val} (hargs : args.length = f.params.length)
    {z : String} (hz : z ∈ f.params.map (·.1)) : (f.entry args z).isSome := by
  have hlookup : (((f.params.map (·.1)).zip args).lookup z).isSome := by
    have hnames : ((f.params.map (·.1)).zip args).map (·.1) = f.params.map (·.1) :=
      List.map_fst_zip (by simp [hargs])
    rw [← hnames] at hz
    obtain ⟨p, hp, rfl⟩ := List.mem_map.mp hz
    exact List.lookup_isSome_iff.mpr ⟨p, hp, beq_self_eq_true p.1⟩
  obtain ⟨v, hv⟩ := Option.isSome_iff_exists.mp hlookup
  rw [Func.entry, hv]
  rfl

/-! ## Code that does not go on -/

theorem Ending.thrown_ne_next {tag : String} {values : List Val} (c : State) :
    Ending.thrown tag values ≠ .next c :=
  nofun

theorem Ending.branch_ne_next {l : String} {c : State} (c' : State) :
    Ending.outcome (.branch l c) ≠ .next c' :=
  nofun

theorem Ending.onto_of_stops {e : Ending} (he : ∀ c, e ≠ .next c) (rest : List Val) :
    e.onto rest = e := by
  cases e with
  | thrown tag values => rfl
  | outcome o =>
      cases o with
      | next c => exact absurd rfl (he c)
      | branch l c => rfl

theorem FinishesAll.append {is js : List Instr} {c c₁ : State} {e : Ending}
    (his : FinishesAll m is c (.next c₁)) (hjs : FinishesAll m js c₁ e) :
    FinishesAll m (is ++ js) c e := by
  induction is generalizing c with
  | nil =>
      cases his
      exact hjs
  | cons i is ih =>
      cases his with
      | cons hi his => exact .cons hi (ih his)
      | stop _ hstop => exact absurd rfl (hstop _)

theorem FinishesAll.append_of_stops {is : List Instr} {c : State} {e : Ending}
    (his : FinishesAll m is c e) (he : ∀ c', e ≠ .next c') (js : List Instr) :
    FinishesAll m (is ++ js) c e := by
  induction is generalizing c with
  | nil =>
      cases his
      exact absurd rfl (he c)
  | cons i is ih =>
      cases his with
      | cons hi his => exact .cons hi (ih his)
      | stop hi _ => exact .stop hi he

/-- A body that leaves to the label of its block takes the results along. -/
theorem Finishes.left {l : String} {results : List ValType} {body : List Instr} {μ ν : Memory}
    {rest vs : List Val} (hbody : FinishesAll m body ⟨μ, []⟩ (.outcome (.branch l ⟨ν, vs⟩)))
    (hvs : vs.length = results.length) :
    Finishes m (.block l results body) ⟨μ, rest⟩ (.next ⟨ν, vs ++ rest⟩) := by
  have hblock : Finishes m (.block l results body) ⟨μ, rest⟩
      (Ending.leaving l results.length rest (.outcome (.branch l ⟨ν, vs⟩))) := .block hbody
  rwa [Ending.leaving, Outcome.leaving, if_pos rfl, ← hvs, List.take_length] at hblock

theorem finishes_br (l : String) (c : State) :
    Finishes m (.plain (.br l) []) c (.outcome (.branch l c)) :=
  .plain .nil .br

/-! ## Tests -/

variable {x tag : String} {t : ValType} {μ : Memory} {v : Val} {rest : List Val}
variable {body : List Instr}

theorem finishes_getLocal (hx : μ.locals x = some v) :
    FinishesAll m [getLocal x] ⟨μ, rest⟩ (.next ⟨μ, v :: rest⟩) :=
  (Module.Does.getLocal hx rest).finishes

/-- An object of the type that is tested for. -/
theorem Finishes.taken (hx : μ.locals x = some v) (hv : m.Passes μ.store v t) {e : Ending}
    (hbody : FinishesAll m body ⟨μ, []⟩ e) :
    Finishes m (.whenTrue (.plain (.refTest t) [getLocal x]) body) ⟨μ, rest⟩ (e.onto rest) :=
  .whenTrue (.plain (finishes_getLocal hx) (.passed hv)) (by decide) hbody

theorem Finishes.skipped (hx : μ.locals x = some v) (hv : ¬ m.Passes μ.store v t) :
    Finishes m (.whenTrue (.plain (.refTest t) [getLocal x]) body) ⟨μ, rest⟩ (.next ⟨μ, rest⟩) :=
  .whenFalse (.plain (finishes_getLocal hx) (.failed hv))

/-- An exception that carries a number. -/
theorem Finishes.throwConst (htag : m.tag? tag = some [.i32]) (n : Int32) :
    Finishes m (.plain (.throw tag) [const n]) ⟨μ, rest⟩ (.thrown tag [.i32 n]) :=
  .plain (Module.Does.const n rest).finishes (.throw htag rfl rfl)

end

end Cool.Wat
