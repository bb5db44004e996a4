import Cool.Proofs.Wat.Typing
import Mathlib.Logic.Function.Basic

/-! How code runs. An instruction takes its operands from the stack and puts its results there; it
goes on with the next one, or leaves to a label. The rules cover the code of expressions over local
variables and of the functions it calls. There is none for an instruction that traps. -/

namespace Cool.Wat

/-! ## States -/

/-- Values: integers, null, and references to objects and to functions. -/
inductive Val where
  | i32 (n : Int32)
  | null
  | ref (address : Nat)
  | func (name : String)
deriving DecidableEq, Repr

/-- Objects: those with fields, and arrays of bytes. -/
inductive Obj where
  | struct (type : String) (fields : List Val)
  | bytes (type : String) (contents : List UInt8)
deriving DecidableEq, Repr

/-- What the functions of a module share: the values of its globals, and the objects made so far,
each at the address of its place in the list. -/
structure Store where
  globals : String → Option Val
  heap : List Obj

/-- What a function sees: the store, and its own locals. -/
structure Memory where
  store : Store
  locals : String → Option Val

/-- A function at work, with its operand stack. The last operand comes first. -/
structure State extends Memory where
  stack : List Val

/-- How code ends: it goes on with what follows, or leaves to a label. -/
inductive Outcome where
  | next (c : State)
  | branch (label : String) (c : State)

/-- The outcome of a body that ran on a stack of its own, on the stack around it. -/
def Outcome.onto (rest : List Val) : Outcome → Outcome
  | next c => next ⟨c.toMemory, c.stack ++ rest⟩
  | branch l c => branch l c

/-- The outcome of a block: leaving to its label takes the results along and goes on after it. -/
def Outcome.leaving (label : String) (results : Nat) (rest : List Val) : Outcome → Outcome
  | next c => next ⟨c.toMemory, c.stack ++ rest⟩
  | branch l c =>
      if l = label then next ⟨c.toMemory, c.stack.take results ++ rest⟩ else branch l c

namespace Memory

def set (μ : Memory) (x : String) (v : Val) : Memory :=
  { μ with locals := Function.update μ.locals x (some v) }

/-- Makes an object. Its address is the number of the objects before it. -/
def alloc (μ : Memory) (o : Obj) : Memory :=
  { μ with store := { μ.store with heap := μ.store.heap ++ [o] } }

theorem set_locals (μ : Memory) (x : String) (v : Val) :
    (μ.set x v).locals = Function.update μ.locals x (some v) :=
  rfl

/-- Setting a local keeps the others. -/
theorem isSome_set {μ : Memory} {z : String} (hz : (μ.locals z).isSome) (x : String) (v : Val) :
    ((μ.set x v).locals z).isSome := by
  rw [set_locals]
  by_cases hzx : z = x
  · rw [hzx, Function.update_self]
    rfl
  · rw [Function.update_of_ne hzx]
    exact hz

/-- Sets each of the given locals to what it is given, the last one first. -/
def setAll (μ : Memory) (xs : List String) (value : String → Val) : Memory :=
  xs.foldr (fun x μ => μ.set x (value x)) μ

theorem setAll_store (μ : Memory) (xs : List String) (value : String → Val) :
    (μ.setAll xs value).store = μ.store := by
  induction xs with
  | nil => rfl
  | cons x xs ih => exact ih

theorem setAll_locals (μ : Memory) (xs : List String) (value : String → Val) (z : String) :
    (μ.setAll xs value).locals z = if z ∈ xs then some (value z) else μ.locals z := by
  induction xs with
  | nil => rfl
  | cons x xs ih =>
      have hstep : μ.setAll (x :: xs) value = (μ.setAll xs value).set x (value x) := rfl
      rw [hstep, set_locals]
      by_cases hzx : z = x
      · rw [hzx, Function.update_self, if_pos List.mem_cons_self]
      · rw [Function.update_of_ne hzx, ih]
        simp [hzx]

end Memory

/-! ## Instructions -/

/-- The truth of a condition as an integer. -/
def truth (b : Bool) : Int32 :=
  if b then 1 else 0

/-- What an operator makes of two integers. Division truncates, and traps where there is no quotient
or the quotient does not fit. -/
def Op.integer? : Op → Int32 → Int32 → Option Int32
  | .add, a, b => some (a + b)
  | .sub, a, b => some (a - b)
  | .mul, a, b => some (a * b)
  | .divS, a, b => if b = 0 ∨ (a = Int32.minValue ∧ b = -1) then none else some (a / b)
  | .ltS, a, b => some (truth (decide (a < b)))
  | .leS, a, b => some (truth (decide (a ≤ b)))
  | .eq, a, b => some (truth (decide (a = b)))
  | _, _, _ => none

/-- The byte of an integer, which keeps its lowest bits. -/
def Val.byte? : Val → Option UInt8
  | .i32 n => some n.toUInt32.toUInt8
  | _ => none

/-- The fields of an object type. -/
def Module.fields? (m : Module) (t : String) : Option (List Field) :=
  match m.type? t with
  | some (.struct _ _ fields) => some fields
  | _ => none

/-- An operator takes two integers from the stack and leaves one. -/
def Op.runInteger (op : Op) (c : State) : Option State :=
  match c.stack with
  | .i32 b :: .i32 a :: stack => (op.integer? a b).map fun n => ⟨c.toMemory, .i32 n :: stack⟩
  | _ => none

/-- Reads a field of the object on top of the stack. -/
def Module.getField (m : Module) (t f : String) (c : State) : Option State :=
  match c.stack with
  | .ref a :: stack => do
      let i ← (← m.fields? t).findIdx? (·.name = f)
      match c.store.heap[a]? with
      | some (.struct _ vs) => vs[i]?.map fun v => ⟨c.toMemory, v :: stack⟩
      | _ => none
  | _ => none

/-- What an instruction that only works on operands, locals and objects does. -/
def Op.run (m : Module) (op : Op) (c : State) : Option State :=
  match op with
  | .localGet x => (c.locals x).map fun v => ⟨c.toMemory, v :: c.stack⟩
  | .localSet x =>
      match c.stack with
      | v :: stack => if (c.locals x).isSome then some ⟨c.toMemory.set x v, stack⟩ else none
      | [] => none
  | .localTee x =>
      match c.stack with
      | v :: stack => if (c.locals x).isSome then some ⟨c.toMemory.set x v, v :: stack⟩ else none
      | [] => none
  | .globalGet g => (c.store.globals g).map fun v => ⟨c.toMemory, v :: c.stack⟩
  | .const n => some ⟨c.toMemory, .i32 n :: c.stack⟩
  | .refNull _ => some ⟨c.toMemory, .null :: c.stack⟩
  | .refFunc f => some ⟨c.toMemory, .func f :: c.stack⟩
  | .refIsNull =>
      match c.stack with
      | v :: stack => some ⟨c.toMemory, .i32 (truth (decide (v = .null))) :: stack⟩
      | [] => none
  | .eqz =>
      match c.stack with
      | .i32 n :: stack => some ⟨c.toMemory, .i32 (truth (decide (n = 0))) :: stack⟩
      | _ => none
  | .drop =>
      match c.stack with
      | _ :: stack => some ⟨c.toMemory, stack⟩
      | [] => none
  | .select _ =>
      match c.stack with
      | .i32 n :: b :: a :: stack => some ⟨c.toMemory, (if n = 0 then b else a) :: stack⟩
      | _ => none
  | .structNew t => do
      let fields ← m.fields? t
      if c.stack.length < fields.length then none
      else some ⟨c.toMemory.alloc (.struct t (c.stack.take fields.length).reverse),
        .ref c.store.heap.length :: c.stack.drop fields.length⟩
  | .structGet t f => m.getField t f c
  | .arrayNewFixed t count => do
      let contents ← (c.stack.take count).reverse.mapM Val.byte?
      if c.stack.length < count then none
      else some ⟨c.toMemory.alloc (.bytes t contents),
        .ref c.store.heap.length :: c.stack.drop count⟩
  | .add | .sub | .mul | .divS | .ltS | .leS | .eq => op.runInteger c
  | _ => none

namespace Op

variable (m : Module) (μ : Memory) (stack : List Val)

theorem run_localGet (x : String) :
    (localGet x).run m ⟨μ, stack⟩ = (μ.locals x).map fun v => ⟨μ, v :: stack⟩ := rfl

theorem run_localSet (x : String) (v : Val) : (localSet x).run m ⟨μ, v :: stack⟩ =
    if (μ.locals x).isSome then some ⟨μ.set x v, stack⟩ else none := rfl

theorem run_localTee (x : String) (v : Val) : (localTee x).run m ⟨μ, v :: stack⟩ =
    if (μ.locals x).isSome then some ⟨μ.set x v, v :: stack⟩ else none := rfl

theorem run_globalGet (g : String) :
    (globalGet g).run m ⟨μ, stack⟩ = (μ.store.globals g).map fun v => ⟨μ, v :: stack⟩ := rfl

theorem run_integer {op : Op} {a b n : Int32} (hn : op.integer? a b = some n) :
    op.run m ⟨μ, .i32 b :: .i32 a :: stack⟩ = some ⟨μ, .i32 n :: stack⟩ := by
  have hrun : op.runInteger ⟨μ, .i32 b :: .i32 a :: stack⟩ = some ⟨μ, .i32 n :: stack⟩ := by
    simp [runInteger, hn]
  cases op with
  | add | sub | mul | divS | ltS | leS | eq => exact hrun
  | _ => cases hn

variable {m}

theorem run_structGet {t f u : String} {fields : List Field} (hfields : m.fields? t = some fields)
    {i : Nat} (hi : fields.findIdx? (·.name = f) = some i) {a : Nat} {vs : List Val}
    (ha : μ.store.heap[a]? = some (.struct u vs)) {v : Val} (hv : vs[i]? = some v) :
    (structGet t f).run m ⟨μ, .ref a :: stack⟩ = some ⟨μ, v :: stack⟩ := by
  show m.getField t f ⟨μ, .ref a :: stack⟩ = _
  simp [Module.getField, hfields, hi, ha, hv]

theorem run_structNew {t : String} {fields : List Field} (hfields : m.fields? t = some fields)
    (vs : List Val) (hvs : vs.length = fields.length) :
    (structNew t).run m ⟨μ, vs.reverse ++ stack⟩ =
      some ⟨μ.alloc (.struct t vs), .ref μ.store.heap.length :: stack⟩ := by
  have hcount : fields.length = vs.reverse.length := by rw [List.length_reverse, hvs]
  unfold run
  simp [hfields, hcount]

theorem run_arrayNewFixed (t : String) {vs : List Val} {contents : List UInt8}
    (hvs : vs.mapM Val.byte? = some contents) :
    (arrayNewFixed t vs.length).run m ⟨μ, vs.reverse ++ stack⟩ =
      some ⟨μ.alloc (.bytes t contents), .ref μ.store.heap.length :: stack⟩ := by
  have htake : (vs.reverse ++ stack).take vs.length = vs.reverse :=
    List.take_left' List.length_reverse
  have hdrop : (vs.reverse ++ stack).drop vs.length = stack :=
    List.drop_left' List.length_reverse
  unfold run
  simp [htake, hdrop, hvs]

end Op

/-- Whether a value is of a type of references: null where the type has it, or an object of the
named type or of an extension. -/
def Module.Passes (m : Module) (st : Store) : Val → ValType → Prop
  | .null, .ref nullable _ => nullable = true
  | .ref a, .ref _ t => ∃ u fields, st.heap[a]? = some (.struct u fields) ∧ m.Extends u t
  | _, _ => False

/-- The value a local starts with. -/
def ValType.zero : ValType → Val
  | i32 => .i32 0
  | ref _ _ => .null

/-- The locals of a function that is called with the given arguments. -/
def Func.entry (f : Func) (args : List Val) : String → Option Val := fun x =>
  match ((f.params.map (·.1)).zip args).lookup x with
  | some v => some v
  | none => (f.locals.lookup x).map (·.zero)

theorem lookup_zip_map (xs : List String) (value : String → Val) (z : String) :
    (xs.zip (xs.map value)).lookup z = if z ∈ xs then some (value z) else none := by
  induction xs with
  | nil => rfl
  | cons x xs ih =>
      rw [List.map_cons, List.zip_cons_cons, List.lookup_cons, ih]
      by_cases hzx : z = x
      · simp [hzx]
      · simp [hzx, beq_false_of_ne hzx]

/-- The locals of a function whose arguments are given by the names of its parameters. -/
theorem Func.entry_map (f : Func) (value : String → Val) (z : String) :
    f.entry ((f.params.map (·.1)).map value) z =
      if z ∈ f.params.map (·.1) then some (value z) else (f.locals.lookup z).map (·.zero) := by
  unfold Func.entry
  rw [lookup_zip_map]
  by_cases hz : z ∈ f.params.map (·.1)
  · rw [if_pos hz, if_pos hz]
  · rw [if_neg hz, if_neg hz]

theorem Func.isSome_entry_map (f : Func) (value : String → Val) {l : String × ValType}
    (hl : l ∈ f.locals) : (f.entry ((f.params.map (·.1)).map value) l.1).isSome := by
  rw [f.entry_map]
  split
  · rfl
  · rw [Option.isSome_map]
    exact List.lookup_isSome_iff.mpr ⟨l, hl, beq_self_eq_true l.1⟩

mutual

/-- What an instruction does once its operands are on the stack. -/
inductive Acts (m : Module) : Op → State → Outcome → Prop where
  | run {op c c'} : op.run m c = some c' → Acts m op c (.next c')
  | cast {t μ v stack} : m.Passes μ.store v t →
      Acts m (.refCast t) ⟨μ, v :: stack⟩ (.next ⟨μ, v :: stack⟩)
  | call {name f args rest c μ left} : m.definitions name = [f] → c.stack = args.reverse ++ rest →
      args.length = f.params.length →
      ExecutesAll m f.body ⟨⟨c.store, f.entry args⟩, []⟩ (.next ⟨μ, left⟩) →
      left.length = f.results.length →
      Acts m (.call name) c (.next ⟨⟨μ.store, c.locals⟩, left ++ rest⟩)
  | br {l c} : Acts m (.br l) c (.branch l c)
  | brIf {l n μ stack} : Acts m (.brIf l) ⟨μ, .i32 n :: stack⟩
      (if n = 0 then .next ⟨μ, stack⟩ else .branch l ⟨μ, stack⟩)

inductive Executes (m : Module) : Instr → State → Outcome → Prop where
  | plain {op operands c c₁ o} : ExecutesAll m operands c (.next c₁) → Acts m op c₁ o →
      Executes m (.plain op operands) c o
  | operand {op operands c l c₁} : ExecutesAll m operands c (.branch l c₁) →
      Executes m (.plain op operands) c (.branch l c₁)
  | ifElse {t onTrue onFalse μ n rest o} :
      ExecutesAll m (if n = 0 then onFalse else onTrue) ⟨μ, []⟩ o →
      Executes m (.ifElse t onTrue onFalse) ⟨μ, .i32 n :: rest⟩ (o.onto rest)
  | block {l results body μ rest o} : ExecutesAll m body ⟨μ, []⟩ o →
      Executes m (.block l results body) ⟨μ, rest⟩ (o.leaving l results.length rest)
  | loop {l body μ rest o} : ExecutesAll m body ⟨μ, []⟩ o → (∀ c, o ≠ .branch l c) →
      Executes m (.loop l body) ⟨μ, rest⟩ (o.onto rest)
  | again {l body μ rest c o} : ExecutesAll m body ⟨μ, []⟩ (.branch l c) →
      Executes m (.loop l body) ⟨c.toMemory, rest⟩ o → Executes m (.loop l body) ⟨μ, rest⟩ o

/-- Instructions one after the other, up to one that leaves. -/
inductive ExecutesAll (m : Module) : List Instr → State → Outcome → Prop where
  | nil {c} : ExecutesAll m [] c (.next c)
  | cons {i is c c₁ o} : Executes m i c (.next c₁) → ExecutesAll m is c₁ o →
      ExecutesAll m (i :: is) c o
  | leave {i is c l c₁} : Executes m i c (.branch l c₁) →
      ExecutesAll m (i :: is) c (.branch l c₁)

end

/-! ## Determinism -/

section

variable {m : Module}

/-- The instructions with rules of their own. -/
def Op.isControl : Op → Bool
  | .refCast _ | .call _ | .br _ | .brIf _ => true
  | _ => false

theorem run_of_isControl {op : Op} (h : op.isControl = true) (c : State) : op.run m c = none := by
  cases op with
  | refCast | call | br | brIf => rfl
  | _ => cases h

mutual

theorem Acts.unique : ∀ {op : Op} {c : State} {o o' : Outcome},
    Acts m op c o → Acts m op c o' → o = o'
  | _, _, _, _, .run h, h' => by
      cases h' with
      | run h' => exact congrArg _ (Option.some.inj (h.symm.trans h'))
      | cast | call | br | brIf => cases (run_of_isControl rfl _).symm.trans h
  | _, _, _, _, .cast _, h' => by
      cases h' with
      | run h => cases (run_of_isControl rfl _).symm.trans h
      | cast => rfl
  | _, _, _, _, .call hf hstack hlength hbody _, h' => by
      cases h' with
      | run h => cases (run_of_isControl rfl _).symm.trans h
      | call hf' hstack' hlength' hbody' _ =>
          cases hf.symm.trans hf'
          obtain ⟨hargs, rfl⟩ := List.append_inj (hstack.symm.trans hstack')
            (by rw [List.length_reverse, List.length_reverse, hlength, hlength'])
          rw [← List.reverse_inj.mp hargs] at hbody'
          cases hbody.unique hbody'
          rfl
  | _, _, _, _, .br, h' => by
      cases h' with
      | run h => cases (run_of_isControl rfl _).symm.trans h
      | br => rfl
  | _, _, _, _, .brIf, h' => by
      cases h' with
      | run h => cases (run_of_isControl rfl _).symm.trans h
      | brIf => rfl

theorem Executes.unique : ∀ {i : Instr} {c : State} {o o' : Outcome},
    Executes m i c o → Executes m i c o' → o = o'
  | _, _, _, _, .plain hops hact, h' => by
      cases h' with
      | plain hops' hact' =>
          cases hops.unique hops'
          exact hact.unique hact'
      | operand hops' => cases hops.unique hops'
  | _, _, _, _, .operand hops, h' => by
      cases h' with
      | plain hops' _ => cases hops.unique hops'
      | operand hops' => exact hops.unique hops'
  | _, _, _, _, .ifElse hbody, h' => by
      cases h' with
      | ifElse hbody' => rw [hbody.unique hbody']
  | _, _, _, _, .block hbody, h' => by
      cases h' with
      | block hbody' => rw [hbody.unique hbody']
  | _, _, _, _, .loop hbody hleaves, h' => by
      cases h' with
      | loop hbody' _ => rw [hbody.unique hbody']
      | again hbody' _ => exact absurd (hbody.unique hbody') (hleaves _)
  | _, _, _, _, .again hbody hrest, h' => by
      cases h' with
      | loop hbody' hleaves => exact absurd (hbody.unique hbody').symm (hleaves _)
      | again hbody' hrest' =>
          cases hbody.unique hbody'
          exact hrest.unique hrest'

theorem ExecutesAll.unique : ∀ {is : List Instr} {c : State} {o o' : Outcome},
    ExecutesAll m is c o → ExecutesAll m is c o' → o = o'
  | _, _, _, _, .nil, h' => by
      cases h'
      rfl
  | _, _, _, _, .cons hi his, h' => by
      cases h' with
      | cons hi' his' =>
          cases hi.unique hi'
          exact his.unique his'
      | leave hi' => cases hi.unique hi'
  | _, _, _, _, .leave hi, h' => by
      cases h' with
      | cons hi' _ => cases hi.unique hi'
      | leave hi' => exact hi.unique hi'

end

theorem ExecutesAll.append {is js : List Instr} {c c₁ : State} {o : Outcome}
    (his : ExecutesAll m is c (.next c₁)) (hjs : ExecutesAll m js c₁ o) :
    ExecutesAll m (is ++ js) c o := by
  induction is generalizing c with
  | nil =>
      cases his
      exact hjs
  | cons i is ih =>
      cases his with
      | cons hi his => exact .cons hi (ih his)

theorem ExecutesAll.of_append {is js : List Instr} {c c₁ : State} {o : Outcome}
    (his : ExecutesAll m is c (.next c₁)) (h : ExecutesAll m (is ++ js) c o) :
    ExecutesAll m js c₁ o := by
  induction is generalizing c with
  | nil =>
      cases his
      exact h
  | cons i is ih =>
      cases his with
      | cons hi his =>
          cases h with
          | cons hi' h =>
              cases hi.unique hi'
              exact ih his h
          | leave hi' => cases hi.unique hi'

theorem executesAll_singleton {i : Instr} {c : State} {o : Outcome} :
    ExecutesAll m [i] c o ↔ Executes m i c o := by
  constructor
  · intro h
    cases h with
    | cons hi hnil =>
        cases hnil
        exact hi
    | leave hi => exact hi
  · intro h
    cases o with
    | next c => exact .cons h .nil
    | branch l c => exact .leave h

theorem not_executes_divS {μ : Memory} {rest : List Val} {o : Outcome} :
    ¬ Executes m (.plain .divS []) ⟨μ, .i32 (-1) :: .i32 .minValue :: rest⟩ o := by
  intro h
  cases h with
  | plain hoperands hact =>
      cases hoperands
      cases hact with
      | run hrun => cases hrun
  | operand hoperands => cases hoperands

theorem Executes.of_block {l : String} {results : List ValType} {body : List Instr} {μ : Memory}
    {rest : List Val} {out : Outcome} (h : Executes m (.block l results body) ⟨μ, rest⟩ out) :
    ∃ o, ExecutesAll m body ⟨μ, []⟩ o ∧ out = o.leaving l results.length rest := by
  cases h with
  | block hbody => exact ⟨_, hbody, rfl⟩

end

/-! ## Code that goes on -/

/-- Code takes operands and leaves others in their place, with any stack below them. The last
operand comes first. -/
def Module.Does (m : Module) (is : List Instr) (μ : Memory) (taken : List Val) (μ' : Memory)
    (left : List Val) : Prop :=
  ∀ rest, ExecutesAll m is ⟨μ, taken ++ rest⟩ (.next ⟨μ', left ++ rest⟩)

/-- The body of a loop that leaves when its test fails, and starts over otherwise. -/
def loopBody (leave next : String) (test body : List Instr) : List Instr :=
  test ++ [.plain .eqz [], .plain (.brIf leave) []] ++ body ++
    [.plain .drop [], .plain (.br next) []]

namespace Module.Does

variable {m : Module} {is js : List Instr} {μ μ₁ μ₂ : Memory} {ts us vs : List Val} {o : Op}

theorem nil (μ : Memory) (ts : List Val) : m.Does [] μ ts μ ts :=
  fun _ => .nil

theorem append (his : m.Does is μ ts μ₁ us) (hjs : m.Does js μ₁ us μ₂ vs) :
    m.Does (is ++ js) μ ts μ₂ vs :=
  fun rest => (his rest).append (hjs rest)

theorem cons {i : Instr} (hi : m.Does [i] μ ts μ₁ us) (his : m.Does is μ₁ us μ₂ vs) :
    m.Does (i :: is) μ ts μ₂ vs :=
  hi.append his

/-- What lies below the operands of code stays as it is. -/
theorem frame (his : m.Does is μ ts μ₁ us) (base : List Val) :
    m.Does is μ (ts ++ base) μ₁ (us ++ base) := by
  intro rest
  rw [List.append_assoc, List.append_assoc]
  exact his (base ++ rest)

/-- An instruction with its operands written inside it. -/
theorem folded {operands : List Instr} (hoperands : m.Does operands μ ts μ₁ us)
    (hop : ∀ rest, Acts m o ⟨μ₁, us ++ rest⟩ (.next ⟨μ₂, vs ++ rest⟩)) :
    m.Does [.plain o operands] μ ts μ₂ vs :=
  fun rest => executesAll_singleton.mpr (.plain (hoperands rest) (hop rest))

theorem op (hop : ∀ rest, Acts m o ⟨μ, us ++ rest⟩ (.next ⟨μ₂, vs ++ rest⟩)) :
    m.Does [.plain o []] μ us μ₂ vs :=
  .folded (.nil _ _) hop

theorem getLocal {x : String} {v : Val} (hx : μ.locals x = some v) :
    m.Does [getLocal x] μ [] μ [v] :=
  .op fun rest => .run (by simp [Op.run_localGet, hx])

theorem setLocal {x : String} (hx : (μ.locals x).isSome) (v : Val) :
    m.Does [.plain (.localSet x) []] μ [v] (μ.set x v) [] :=
  .op fun rest => .run (by simp [Op.run_localSet, hx])

theorem teeLocal {x : String} (hx : (μ.locals x).isSome) (v : Val) :
    m.Does [.plain (.localTee x) []] μ [v] (μ.set x v) [v] :=
  .op fun rest => .run (by simp [Op.run_localTee, hx])

theorem getGlobal {g : String} {v : Val} (hg : μ.store.globals g = some v) :
    m.Does [.plain (.globalGet g) []] μ [] μ [v] :=
  .op fun rest => .run (by simp [Op.run_globalGet, hg])

theorem null (t : String) : m.Does [.plain (.refNull t) []] μ [] μ [.null] :=
  .op fun _ => .run rfl

theorem const (n : Int32) : m.Does [const n] μ [] μ [.i32 n] :=
  .op fun _ => .run rfl

theorem drop (v : Val) : m.Does [.plain .drop []] μ [v] μ [] :=
  .op fun _ => .run rfl

theorem isNull (v : Val) :
    m.Does [.plain .refIsNull []] μ [v] μ [.i32 (truth (decide (v = .null)))] :=
  .op fun _ => .run rfl

theorem eqz (n : Int32) :
    m.Does [.plain .eqz []] μ [.i32 n] μ [.i32 (truth (decide (n = 0)))] :=
  .op fun _ => .run rfl

theorem integer {a b n : Int32} (hn : o.integer? a b = some n) :
    m.Does [.plain o []] μ [.i32 b, .i32 a] μ [.i32 n] :=
  .op fun rest => .run (Op.run_integer m μ rest hn)

theorem cast {v : Val} {t : ValType} (hv : m.Passes μ.store v t) :
    m.Does [.plain (.refCast t) []] μ [v] μ [v] :=
  .op fun _ => .cast hv

/-- Instructions that each put one value on the stack. -/
theorem pushes (his : List.Forall₂ (fun i v => m.Does [i] μ [] μ [v]) is vs) :
    m.Does is μ [] μ vs.reverse := by
  induction his with
  | nil => exact .nil μ []
  | @cons i v is vs hi _ ih =>
      rw [List.reverse_cons]
      exact hi.cons (ih.frame [v])

theorem pushes_map {α : Type} {as : List α} {f : α → Instr} {v : α → Val}
    (has : ∀ a ∈ as, m.Does [f a] μ [] μ [v a]) : m.Does (as.map f) μ [] μ (as.map v).reverse := by
  refine pushes ?_
  rw [List.forall₂_map_left_iff, List.forall₂_map_right_iff, List.forall₂_same]
  exact has

/-- Operands are stored from the last to the first. -/
theorem setLocals {xs : List String} (hxs : ∀ x ∈ xs, (μ.locals x).isSome)
    (value : String → Val) :
    m.Does (xs.reverse.map fun x => .plain (.localSet x) []) μ (xs.map value).reverse
      (μ.setAll xs value) [] := by
  induction xs with
  | nil => exact .nil μ []
  | cons x xs ih =>
      obtain ⟨hx, hxs⟩ := List.forall_mem_cons.mp hxs
      rw [List.reverse_cons, List.map_append, List.map_cons (f := value), List.reverse_cons]
      have hslot : ((μ.setAll xs value).locals x).isSome := by
        rw [Memory.setAll_locals]
        split
        · rfl
        · exact hx
      exact ((ih hxs).frame [value x]).append (setLocal hslot (value x))

/-- A call runs the body of the function on locals of its own. -/
theorem call {f : Func} (hf : m.definitions f.name = [f]) (args : List Val) {left : List Val}
    (hargs : args.length = f.params.length) {st : Store} {locals : String → Option Val}
    (hbody : m.Does f.body ⟨μ.store, f.entry args⟩ [] ⟨st, locals⟩ left)
    (hleft : left.length = f.results.length) :
    m.Does [.plain (.call f.name) []] μ args.reverse ⟨st, μ.locals⟩ left := by
  refine .op fun rest => .call (μ := ⟨st, locals⟩) hf rfl hargs ?_ hleft
  have hrun := hbody []
  rwa [List.append_nil, List.append_nil] at hrun

theorem ifElse {t : ValType} {onTrue onFalse : List Instr} {b : Bool}
    (hbody : m.Does (if b then onTrue else onFalse) μ [] μ₁ us) :
    m.Does [.ifElse t onTrue onFalse] μ [.i32 (truth b)] μ₁ us := by
  intro rest
  have hrun := hbody []
  rw [List.append_nil, List.append_nil] at hrun
  have hif : Executes m (.ifElse t onTrue onFalse) ⟨μ, .i32 (truth b) :: rest⟩
      (Outcome.onto rest (.next ⟨μ₁, us⟩)) := by
    refine .ifElse ?_
    cases b <;> exact hrun
  exact executesAll_singleton.mpr hif

/-! ## Loops -/

section

variable {leave next : String} {test body : List Instr} {v : Val}

/-- A loop ends when its test fails. -/
theorem loopExit (hlabels : leave ≠ next) (htest : m.Does test μ [] μ₁ [.i32 (truth false)]) :
    m.Does [.block leave [] [.loop next (loopBody leave next test body)]] μ [] μ₁ [] := by
  intro rest
  have hleave : Executes m (.plain (.brIf leave) []) ⟨μ₁, [.i32 1]⟩ (.branch leave ⟨μ₁, []⟩) :=
    .plain .nil .brIf
  have hbody : ExecutesAll m (loopBody leave next test body) ⟨μ, []⟩ (.branch leave ⟨μ₁, []⟩) := by
    rw [loopBody, List.append_assoc, List.append_assoc]
    exact (htest []).append (.cons (.plain .nil (.run rfl)) (.leave hleave))
  have hloop : Executes m (.loop next (loopBody leave next test body)) ⟨μ, []⟩
      (Outcome.onto [] (.branch leave ⟨μ₁, []⟩)) :=
    .loop hbody fun c heq => hlabels (Outcome.branch.inj heq).1
  have hblock : Executes m (.block leave [] [.loop next (loopBody leave next test body)]) ⟨μ, rest⟩
      (Outcome.leaving leave 0 rest (.branch leave ⟨μ₁, []⟩)) :=
    .block (executesAll_singleton.mpr hloop)
  rw [Outcome.leaving, if_pos rfl] at hblock
  exact executesAll_singleton.mpr hblock

/-- While its test holds, a loop goes on as it would after the iteration. -/
theorem loopAgain (htest : m.Does test μ [] μ₁ [.i32 (truth true)])
    (hbody : m.Does body μ₁ [] μ₂ [v]) {μ₃ : Memory} {tail : List Instr}
    (hrest : m.Does (.block leave [] [.loop next (loopBody leave next test body)] :: tail) μ₂ [] μ₃
      us) :
    m.Does (.block leave [] [.loop next (loopBody leave next test body)] :: tail) μ [] μ₃ us := by
  intro rest
  have hstay : m.Does [.plain (.brIf leave) []] μ₁ [.i32 0] μ₁ [] := .op fun _ => .brIf
  have hiteration : ExecutesAll m (loopBody leave next test body) ⟨μ, []⟩
      (.branch next ⟨μ₂, []⟩) := by
    have hbr : Executes m (.plain (.br next) []) ⟨μ₂, []⟩ (.branch next ⟨μ₂, []⟩) := .plain .nil .br
    have htested : m.Does (test ++ [.plain .eqz [], .plain (.brIf leave) []]) μ [] μ₁ [] :=
      htest.append ((eqz _).cons hstay)
    exact ((htested.append hbody) []).append (.cons (.plain .nil (.run rfl)) (.leave hbr))
  cases hrest rest with
  | cons hblock htail =>
      obtain ⟨o, hloop, hout⟩ := hblock.of_block
      have hagain : Executes m (.loop next (loopBody leave next test body)) ⟨μ, []⟩ o :=
        .again hiteration (executesAll_singleton.mp hloop)
      refine .cons ?_ htail
      rw [hout]
      exact .block (executesAll_singleton.mpr hagain)

end

end Module.Does

/-! ## Stores -/

/-- A later store: what was there is still there as it was. -/
structure Store.Keeps (st st' : Store) : Prop where
  globals : ∀ g v, st.globals g = some v → st'.globals g = some v
  heap : st.heap <+: st'.heap

namespace Store.Keeps

variable {st st₁ st₂ : Store}

theorem refl (st : Store) : st.Keeps st :=
  ⟨fun _ _ h => h, List.prefix_rfl⟩

theorem trans (h : st.Keeps st₁) (h' : st₁.Keeps st₂) : st.Keeps st₂ :=
  ⟨fun g v hg => h'.globals g v (h.globals g v hg), h.heap.trans h'.heap⟩

theorem getElem? (h : st.Keeps st₁) {a : Nat} {o : Obj} (ho : st.heap[a]? = some o) :
    st₁.heap[a]? = some o := by
  obtain ⟨new, hnew⟩ := h.heap
  obtain ⟨ha, -⟩ := List.getElem?_eq_some_iff.mp ho
  rw [← hnew, List.getElem?_append_left ha, ho]

theorem alloc (μ : Memory) (o : Obj) : μ.store.Keeps (μ.alloc o).store :=
  ⟨fun _ _ h => h, List.prefix_append _ _⟩

end Store.Keeps

/-! ## Starting a module -/

mutual

/-- The state after an instruction with all its operands written inside it. -/
def Instr.constant? (m : Module) : Instr → State → Option State
  | .plain op operands, c => (constants? m operands c).bind (op.run m)
  | _, _ => none
termination_by structural i => i

def constants? (m : Module) : List Instr → State → Option State
  | [], c => some c
  | i :: is, c => (i.constant? m c).bind (constants? m is)
termination_by structural is => is

end

/-- Gives a global the value of its initializer. -/
def Module.define (m : Module) (st : Store) (g : Global) : Option Store :=
  match g.init.constant? m ⟨⟨st, fun _ => none⟩, []⟩ with
  | some ⟨μ, [v]⟩ => some ⟨Function.update μ.store.globals g.name (some v), μ.store.heap⟩
  | _ => none

/-- The store a module starts with: its globals are defined one after the other. -/
def Module.instantiate (m : Module) : Option Store :=
  m.globals.foldlM m.define ⟨fun _ => none, []⟩

section

variable {m : Module}

/-- What an instruction does to the memory: nothing, or it sets a local or makes an object. -/
theorem Op.run_memory {op : Op} {c c' : State} (h : op.run m c = some c') :
    c'.toMemory = c.toMemory ∨ (∃ x v, c'.toMemory = c.toMemory.set x v) ∨
      ∃ o, c'.toMemory = c.toMemory.alloc o := by
  unfold Op.run at h
  cases op with
  | localGet | globalGet =>
      obtain ⟨v, -, rfl⟩ := Option.map_eq_some_iff.mp h
      exact .inl rfl
  | const | refNull | refFunc =>
      cases h
      exact .inl rfl
  | refIsNull | eqz | drop | select =>
      dsimp only at h
      split at h
      · cases h
        exact .inl rfl
      · cases h
  | localSet x | localTee x =>
      dsimp only at h
      split at h
      · split at h
        · cases h
          exact .inr (.inl ⟨x, _, rfl⟩)
        · cases h
      · cases h
  | structNew | arrayNewFixed =>
      obtain ⟨_, -, h⟩ := Option.bind_eq_some_iff.mp h
      split at h
      · cases h
      · cases h
        exact .inr (.inr ⟨_, rfl⟩)
  | structGet =>
      dsimp only [Module.getField] at h
      split at h
      · obtain ⟨_, -, h⟩ := Option.bind_eq_some_iff.mp h
        obtain ⟨_, -, h⟩ := Option.bind_eq_some_iff.mp h
        split at h
        · obtain ⟨v, -, rfl⟩ := Option.map_eq_some_iff.mp h
          exact .inl rfl
        · cases h
      · cases h
  | add | sub | mul | divS | ltS | leS | eq =>
      dsimp only [Op.runInteger] at h
      split at h
      · obtain ⟨n, -, rfl⟩ := Option.map_eq_some_iff.mp h
        exact .inl rfl
      · cases h
  | _ => cases h

/-- Instructions define no globals and only add objects. -/
theorem Op.run_store {op : Op} {c c' : State} (h : op.run m c = some c') :
    c'.store.globals = c.store.globals ∧ c.store.heap <+: c'.store.heap := by
  rcases Op.run_memory h with heq | ⟨x, v, heq⟩ | ⟨o, heq⟩
  · rw [heq]
    exact ⟨rfl, List.prefix_rfl⟩
  · rw [heq]
    exact ⟨rfl, List.prefix_rfl⟩
  · rw [heq]
    exact ⟨rfl, List.prefix_append _ _⟩

mutual

theorem Instr.constant?_store : ∀ {i : Instr} {c c' : State}, i.constant? m c = some c' →
    c'.store.globals = c.store.globals ∧ c.store.heap <+: c'.store.heap
  | .plain op operands, c, c', h => by
      rw [Instr.constant?] at h
      obtain ⟨c₁, h₁, hop⟩ := Option.bind_eq_some_iff.mp h
      obtain ⟨hglobals, hheap⟩ := constants?_store h₁
      obtain ⟨hglobals', hheap'⟩ := Op.run_store hop
      exact ⟨hglobals'.trans hglobals, hheap.trans hheap'⟩
  | .whenTrue _ _, _, _, h | .ifElse _ _ _, _, _, h | .block _ _ _, _, _, h
  | .loop _ _, _, _, h => by cases h

theorem constants?_store : ∀ {is : List Instr} {c c' : State}, constants? m is c = some c' →
    c'.store.globals = c.store.globals ∧ c.store.heap <+: c'.store.heap
  | [], c, c', h => by
      cases h
      exact ⟨rfl, List.prefix_rfl⟩
  | i :: is, c, c', h => by
      rw [constants?] at h
      obtain ⟨c₁, h₁, his⟩ := Option.bind_eq_some_iff.mp h
      obtain ⟨hglobals, hheap⟩ := Instr.constant?_store h₁
      obtain ⟨hglobals', hheap'⟩ := constants?_store his
      exact ⟨hglobals'.trans hglobals, hheap.trans hheap'⟩

end

/-- Instructions that each put one value on the stack, as constants. -/
theorem constants?_map {α : Type} {f : α → Instr} {v : α → Val} {μ : Memory}
    (hf : ∀ a stack, (f a).constant? m ⟨μ, stack⟩ = some ⟨μ, v a :: stack⟩) (as : List α)
    (stack : List Val) :
    constants? m (as.map f) ⟨μ, stack⟩ = some ⟨μ, (as.map v).reverse ++ stack⟩ := by
  induction as generalizing stack with
  | nil => rfl
  | cons a as ih =>
      rw [List.map_cons, constants?, hf, Option.bind_some, ih]
      simp

/-- A global was defined by its initializer in an earlier store. -/
structure Module.Defined (m : Module) (st : Store) (g : Global) (v : Val) (μ : Memory) : Prop where
  value : st.globals g.name = some v
  init : ∃ st₀, g.init.constant? m ⟨⟨st₀, fun _ => none⟩, []⟩ = some ⟨μ, [v]⟩
  heap : μ.store.heap <+: st.heap

theorem Module.define_eq_some {st st' : Store} {g : Global} (h : m.define st g = some st') :
    ∃ v μ, g.init.constant? m ⟨⟨st, fun _ => none⟩, []⟩ = some ⟨μ, [v]⟩ ∧
      st' = ⟨Function.update μ.store.globals g.name (some v), μ.store.heap⟩ := by
  unfold Module.define at h
  split at h
  · rename_i μ v heq
    exact ⟨v, μ, heq, (Option.some.inj h).symm⟩
  · cases h

theorem Module.exists_define {st : Store} {g : Global} {μ : Memory} {v : Val}
    (h : g.init.constant? m ⟨⟨st, fun _ => none⟩, []⟩ = some ⟨μ, [v]⟩) :
    ∃ st', m.define st g = some st' := by
  rw [Module.define, h]
  exact ⟨_, rfl⟩

theorem Module.defined_of_foldlM {gs : List Global} {st st' : Store}
    (h : gs.foldlM m.define st = some st') (hnodup : (gs.map (·.name)).Nodup) :
    st.heap <+: st'.heap ∧ (∀ x, x ∉ gs.map (·.name) → st'.globals x = st.globals x) ∧
      ∀ g ∈ gs, ∃ v μ, m.Defined st' g v μ := by
  induction gs generalizing st with
  | nil =>
      cases h
      exact ⟨List.prefix_rfl, fun _ _ => rfl, nofun⟩
  | cons g gs ih =>
      rw [List.foldlM_cons] at h
      obtain ⟨st₁, hg, hrest⟩ := Option.bind_eq_some_iff.mp h
      obtain ⟨v, μ, hinit, rfl⟩ := Module.define_eq_some hg
      rw [List.map_cons, List.nodup_cons] at hnodup
      obtain ⟨hheap, hglobals, hall⟩ := ih hrest hnodup.2
      obtain ⟨hsame, hgrown⟩ := Instr.constant?_store hinit
      refine ⟨hgrown.trans hheap, fun x hx => ?_, List.forall_mem_cons.mpr ⟨⟨v, μ, ?_⟩, hall⟩⟩
      · rw [List.map_cons, List.mem_cons, not_or] at hx
        rw [hglobals x hx.2]
        exact (Function.update_of_ne hx.1 _ _).trans (congrFun hsame x)
      · refine ⟨?_, ⟨st, hinit⟩, hheap⟩
        rw [hglobals _ hnodup.1]
        exact Function.update_self _ _ _

/-- Defining a global defines it, and no other is lost. -/
theorem Module.isSome_define {st st' : Store} {g : Global} (h : m.define st g = some st') :
    (st'.globals g.name).isSome ∧ ∀ x, (st.globals x).isSome → (st'.globals x).isSome := by
  obtain ⟨v, μ, hinit, rfl⟩ := Module.define_eq_some h
  refine ⟨Option.isSome_of_eq_some (Function.update_self _ _ _), fun x hx => ?_⟩
  dsimp only
  by_cases hxg : x = g.name
  · rw [hxg, Function.update_self]
    rfl
  · rw [Function.update_of_ne hxg, (Instr.constant?_store hinit).1]
    exact hx

/-- Globals can be defined one after the other if each can be once those before are. -/
theorem Module.exists_foldlM_define (gs : List Global) (st : Store)
    (hgs : ∀ g ∈ gs, ∀ st', (∀ x, (st.globals x).isSome → (st'.globals x).isSome) →
      ∃ st'', m.define st' g = some st'') :
    ∃ st', gs.foldlM m.define st = some st' ∧ (∀ g ∈ gs, (st'.globals g.name).isSome) ∧
      ∀ x, (st.globals x).isSome → (st'.globals x).isSome := by
  induction gs generalizing st with
  | nil => exact ⟨st, rfl, nofun, fun _ hx => hx⟩
  | cons g gs ih =>
      obtain ⟨hg, hgs⟩ := List.forall_mem_cons.mp hgs
      obtain ⟨st₁, hst₁⟩ := hg st fun _ hx => hx
      obtain ⟨hnew, hkept⟩ := Module.isSome_define hst₁
      obtain ⟨st', hst', hall, hkept'⟩ := ih st₁ fun g' hg' st'' hst'' =>
        hgs g' hg' st'' fun x hx => hst'' x (hkept x hx)
      refine ⟨st', ?_, List.forall_mem_cons.mpr ⟨hkept' _ hnew, hall⟩,
        fun x hx => hkept' x (hkept x hx)⟩
      rw [List.foldlM_cons, hst₁]
      exact hst'

/-- Every global of a module that was started holds what its initializer made. -/
theorem Module.defined_of_instantiate {st : Store} (h : m.instantiate = some st)
    (hm : m.NamesDistinct) {g : Global} (hg : g ∈ m.globals) : ∃ v μ, m.Defined st g v μ :=
  (Module.defined_of_foldlM h hm.globals).2.2 g hg

end

end Cool.Wat
