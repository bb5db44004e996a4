import Cool.Proofs.Lowering.Interface
import Cool.Proofs.Typing.Evaluation
import Cool.Proofs.Wat.Execution

/-! How values lie in the store. An integer or a boolean is a box around its contents, a string is
a box around its bytes, and void is null. The boxing functions and the constants of a module keep
to this. -/

namespace Cool.Lowering

open Wat Typing

/-- An object of a class around its contents. -/
def Boxes (st : Store) (c : Name) (w contents : Val) : Prop :=
  ∃ a table, w = .ref a ∧ st.heap[a]? = some (.struct (classType c) [table, contents])

/-- Whether a value of the machine stands for a value. -/
inductive Represents (st : Store) : Val → Value → Prop where
  | int {w n} : Boxes st .int w (.i32 n) → Represents st w (.int n)
  | bool {w b} : Boxes st .bool w (.i32 (truth b)) → Represents st w (.bool b)
  | string {w chars s} : Boxes st .string w (.ref chars) →
      st.heap[chars]? = some (.bytes charsType s.toUTF8.toList) → Represents st w (.string s)
  | void : Represents st .null .void
  | object {a c fields} : st.heap[a]? = some (.struct (classType c) fields) →
      Represents st (.ref a) (.object c a)

theorem Boxes.keep {st st' : Store} {c : Name} {w u : Val} (h : Boxes st c w u)
    (hst : st.Keeps st') : Boxes st' c w u := by
  obtain ⟨a, table, rfl, ha⟩ := h
  exact ⟨a, table, rfl, hst.getElem? ha⟩

namespace Represents

variable {st st' : Store} {w : Val} {v : Value}

/-- Values stay where they are while other objects are made. -/
theorem keep (h : Represents st w v) (hst : st.Keeps st') : Represents st' w v := by
  cases h with
  | int hw => exact .int (hw.keep hst)
  | bool hw => exact .bool (hw.keep hst)
  | string hw hchars => exact .string (hw.keep hst) (hst.getElem? hchars)
  | void => exact .void
  | object ha => exact .object (hst.getElem? ha)

/-- An object is of the type of its class. -/
theorem exists_struct (h : Represents st w v) {c : Name} (hc : v.class? = some c) :
    ∃ a fields, w = .ref a ∧ st.heap[a]? = some (.struct (classType c) fields) := by
  cases h with
  | int hw | bool hw | string hw _ =>
      cases hc
      obtain ⟨a, table, rfl, ha⟩ := hw
      exact ⟨a, _, rfl, ha⟩
  | void => cases hc
  | object ha =>
      cases hc
      exact ⟨_, _, rfl, ha⟩

theorem eq_null_iff (h : Represents st w v) : w = .null ↔ v = .void := by
  constructor
  · rintro rfl
    cases v with
    | void => rfl
    | int | bool | string | object => cases (h.exists_struct rfl).choose_spec.choose_spec.1
  · rintro rfl
    cases h
    rfl

/-- A value passes a cast to a class above its own. -/
theorem passes {m : Module} {ms : Members} {pool : Pool} (hm : Provides m ms pool)
    (h : Represents st w v) {want : Name}
    (hwant : ∀ c, v.class? = some c → ms.hierarchy.Inherits c want) :
    m.Passes st w (valueType want) := by
  cases hc : v.class? with
  | none =>
      have hvoid : v = .void := by cases v <;> trivial
      rw [h.eq_null_iff.mpr hvoid]
      exact rfl
  | some c =>
      obtain ⟨a, fields, rfl, ha⟩ := h.exists_struct hc
      exact ⟨_, fields, ha, hm.extends_of_inherits (hwant c hc)⟩

end Represents

/-! ## Boxing -/

section

variable {m : Module} {ms : Members} {pool : Pool} (hm : Provides m ms pool)
variable (hdistinct : m.NamesDistinct) {μ : Memory}

include hm hdistinct

theorem fields?_classType {c : Name} (hc : c ∈ ms.hierarchy.names) :
    m.fields? (classType c) = some (objectFields c (ms.attributes c c)) := by
  have htype := hdistinct.type?_of_mem (hm.object c hc)
  rw [TypeDef.name] at htype
  rw [Module.fields?, htype]

theorem does_unbox {c : Name} (hc : c ∈ ms.hierarchy.names) (hbox : c = .int ∨ c = .bool)
    {w : Val} {n : Int32} (hw : Boxes μ.store c w (.i32 n)) :
    m.Does [.plain (.call (unboxFunc c)) []] μ [w] μ [.i32 n] := by
  have hmem : unboxDefinition c ∈ m.funcs := by
    refine hm.helpers _ (List.mem_append_left _ ?_)
    rcases hbox with rfl | rfl <;> simp [boxing]
  obtain ⟨a, table, rfl, ha⟩ := hw
  have hfields := fields?_classType hm hdistinct hc
  rw [objectFields, dataFields, if_pos hbox] at hfields
  have hbody (μ' : Memory) (hstore : μ'.store = μ.store) (hv : μ'.locals "$v" = some (.ref a)) :
      m.Does (unboxDefinition c).body μ' [] μ' [.i32 n] := by
    refine .folded (.getLocal hv) fun rest => .run ?_
    rw [← hstore] at ha
    exact Op.run_structGet μ' rest hfields rfl ha rfl
  exact .call (hdistinct.definitions_of_mem hmem) [.ref a] rfl (hbody _ rfl rfl) rfl

/-- An integer is boxed as a new object. -/
theorem does_boxInt (hc : .int ∈ ms.hierarchy.names) {table : Val}
    (htable : μ.store.globals (tableGlobal .int) = some table) (n : Int32) :
    m.Does [.plain (.call (boxFunc .int)) []] μ [.i32 n]
      (μ.alloc (.struct (classType .int) [table, .i32 n])) [.ref μ.store.heap.length] := by
  have hmem : boxIntDefinition ∈ m.funcs := hm.helpers _ (by simp [boxing])
  have hfields := fields?_classType hm hdistinct hc
  have hbody (μ' : Memory) (hstore : μ'.store = μ.store) (hn : μ'.locals "$v" = some (.i32 n)) :
      m.Does boxIntDefinition.body μ' [] (μ'.alloc (.struct (classType .int) [table, .i32 n]))
        [.ref μ.store.heap.length] := by
    rw [← hstore] at htable
    refine .folded ((Module.Does.getGlobal htable).cons ((Module.Does.getLocal hn).frame [table]))
      fun rest => .run ?_
    rw [← hstore]
    exact Op.run_structNew μ' rest hfields [table, .i32 n] rfl
  exact .call (hdistinct.definitions_of_mem hmem) [.i32 n] rfl (hbody _ rfl rfl) rfl

/-- A boolean is boxed as one of the two constants. -/
theorem does_boxBool {yes no : Val} (hyes : μ.store.globals trueGlobal = some yes)
    (hno : μ.store.globals falseGlobal = some no) (b : Bool) :
    m.Does [.plain (.call (boxFunc .bool)) []] μ [.i32 (truth b)] μ [if b then yes else no] := by
  have hmem : boxBoolDefinition ∈ m.funcs := hm.helpers _ (by simp [boxing])
  have hbody (μ' : Memory) (hstore : μ'.store = μ.store)
      (hb : μ'.locals "$v" = some (.i32 (truth b))) :
      m.Does boxBoolDefinition.body μ' [] μ' [if b then yes else no] := by
    rw [← hstore] at hyes hno
    refine .folded ((Module.Does.getGlobal hyes).cons (((Module.Does.getGlobal hno).frame
      [yes]).cons ((Module.Does.getLocal hb).frame [no, yes]))) fun rest => .run ?_
    cases b <;> rfl
  exact .call (hdistinct.definitions_of_mem hmem) [.i32 (truth b)] rfl (hbody _ rfl rfl) rfl

end

/-! ## Integers -/

/-- The operators of the machine are those of integers of 32 bits, except that it divides only where
the quotient is in range. -/
theorem integer?_of_value? {op : BinaryOp} {instr : Op} (hop : integerOp? op = some instr)
    {a b : Int32} {v : Value} (hv : op.value? a b = some v)
    (hrange : op = .divide → ¬ (a = .minValue ∧ b = -1)) :
    (∃ n, op.isArithmetic = true ∧ v = .int n ∧ instr.integer? a b = some n) ∨
      ∃ c, op.isArithmetic = false ∧ v = .bool c ∧ instr.integer? a b = some (truth c) := by
  cases op with
  | plus =>
      cases hop
      cases hv
      exact .inl ⟨_, rfl, rfl, by simp [Op.integer?, Int32.ofInt_add]⟩
  | sub =>
      cases hop
      cases hv
      exact .inl ⟨_, rfl, rfl, by simp [Op.integer?, Int32.ofInt_sub]⟩
  | mul =>
      cases hop
      cases hv
      exact .inl ⟨_, rfl, rfl, by simp [Op.integer?, Int32.ofInt_mul]⟩
  | divide =>
      cases hop
      obtain ⟨q, hq, rfl⟩ := Option.map_eq_some_iff.mp hv
      refine .inl ⟨q, rfl, rfl, ?_⟩
      unfold quotient? at hq
      split at hq
      · cases hq
      · rename_i hzero
        have hdefined : ¬ (b = 0 ∨ a = Int32.minValue ∧ b = -1) := not_or.mpr ⟨hzero, hrange rfl⟩
        rw [Op.integer?, if_neg hdefined, ← Option.some.inj hq]
        have hquotient := Int32.ofInt_tdiv (Int32.minValue_le_toInt a) (Int32.toInt_le a)
          (Int32.minValue_le_toInt b) (Int32.toInt_le b)
        rw [hquotient, Int32.ofInt_toInt, Int32.ofInt_toInt]
  | lt =>
      cases hop
      cases hv
      exact .inr ⟨_, rfl, rfl, by simp [Op.integer?, Int32.lt_iff_toInt_lt]⟩
  | leq =>
      cases hop
      cases hv
      exact .inr ⟨_, rfl, rfl, by simp [Op.integer?, Int32.le_iff_toInt_le]⟩
  | eq | unknown => cases hop

/-! ## Constants -/

/-- A store with the constants of a pool. -/
structure Pool.Loaded (pool : Pool) (st : Store) : Prop where
  table : ∃ table, st.globals (tableGlobal .int) = some table
  bool : ∀ b, ∃ w, st.globals (if b then trueGlobal else falseGlobal) = some w ∧
    Represents st w (.bool b)
  int : ∀ n g, pool.int n = .ok g → ∃ w, st.globals g = some w ∧ Represents st w (.int n)
  text : ∀ s g, pool.text s = .ok g → ∃ w, st.globals g = some w ∧ Represents st w (.string s)

theorem Pool.Loaded.keep {pool : Pool} {st st' : Store} (h : pool.Loaded st)
    (hst : st.Keeps st') : pool.Loaded st' := by
  have hkeep : ∀ {g : String} {v : Value}, (∃ w, st.globals g = some w ∧ Represents st w v) →
      ∃ w, st'.globals g = some w ∧ Represents st' w v := by
    rintro g v ⟨w, hg, hw⟩
    exact ⟨w, hst.globals g w hg, hw.keep hst⟩
  refine ⟨?_, fun b => hkeep (h.bool b), fun n g hg => hkeep (h.int n g hg),
    fun s g hg => hkeep (h.text s g hg)⟩
  obtain ⟨table, htable⟩ := h.table
  exact ⟨table, hst.globals _ _ htable⟩

theorem toList_loop_length (bs : ByteArray) (i : Nat) (acc : List UInt8) :
    (ByteArray.toList.loop bs i acc).length = bs.size - i + acc.length := by
  fun_induction ByteArray.toList.loop bs i acc with
  | case1 i acc hi ih =>
      rw [ih, List.length_cons]
      omega
  | case2 i acc hi =>
      rw [List.length_reverse]
      omega

theorem toList_toUTF8_length (s : String) : s.toUTF8.toList.length = s.utf8ByteSize := by
  rw [ByteArray.toList, toList_loop_length]
  rfl

section

variable {m : Module}

theorem byte?_ofNat (b : UInt8) : Val.byte? (.i32 (Int32.ofNat b.toNat)) = some b := by
  rw [Val.byte?]
  congr 1
  apply UInt8.toNat_inj.mp
  simp

theorem mapM_byte? (bs : List UInt8) :
    (bs.map fun b => Val.i32 (Int32.ofNat b.toNat)).mapM Val.byte? = some bs := by
  induction bs with
  | nil => rfl
  | cons b bs ih =>
      rw [List.map_cons, List.mapM_cons, byte?_ofNat, ih]
      rfl

theorem constant?_chars (text : String) (μ : Memory) (stack : List Val) :
    (Pool.chars text).constant? m ⟨μ, stack⟩ =
      some ⟨μ.alloc (.bytes charsType text.toUTF8.toList), .ref μ.store.heap.length :: stack⟩ := by
  have hcount : text.utf8ByteSize =
      (text.toUTF8.toList.map fun b => Val.i32 (Int32.ofNat b.toNat)).length := by
    rw [List.length_map, toList_toUTF8_length]
  rw [Pool.chars, Instr.constant?, constants?_map (fun _ _ => rfl), Option.bind_some, hcount]
  exact Op.run_arrayNewFixed μ stack charsType (mapM_byte? _)

variable {ms : Members} {pool : Pool} (hm : Provides m ms pool) (hdistinct : m.NamesDistinct)

include hm hdistinct

/-- The objects of the classes of constants have a table and their contents. -/
theorem fields?_length {c : Name} (hc : c ∈ ms.hierarchy.names) (hprim : c.isPrimitive = true) :
    ∃ fields, m.fields? (classType c) = some fields ∧ fields.length = 2 := by
  refine ⟨_, fields?_classType hm hdistinct hc, ?_⟩
  simp only [Name.isPrimitive, Bool.or_eq_true, decide_eq_true_eq] at hprim
  rcases hprim with (rfl | rfl) | rfl <;> rfl

/-- A constant is a box around its contents. -/
theorem constant?_boxed {name : String} {c : Name} (hc : c ∈ ms.hierarchy.names)
    (hprim : c.isPrimitive = true) {contents : Instr} {μ μ₁ : Memory} {u : Val}
    (hcontents : ∀ table, contents.constant? m ⟨μ, [table]⟩ = some ⟨μ₁, [u, table]⟩) :
    (Pool.boxed name c contents).init.constant? m ⟨μ, []⟩ =
      (μ.store.globals (tableGlobal c)).map fun table =>
        ⟨μ₁.alloc (.struct (classType c) [table, u]), [.ref μ₁.store.heap.length]⟩ := by
  obtain ⟨fields, hfields, hlength⟩ := fields?_length hm hdistinct hc hprim
  rw [Pool.boxed]
  cases htable : μ.store.globals (tableGlobal c) with
  | none => simp [Instr.constant?, constants?, Op.run_globalGet, htable]
  | some table =>
      have hnew := Op.run_structNew μ₁ [] hfields [table, u] hlength.symm
      simpa [Instr.constant?, constants?, Op.run_globalGet, htable, hcontents] using hnew

/-- A constant of a module that was started holds a box around its contents. -/
theorem boxes_of_instantiate {st : Store} (hstart : m.instantiate = some st) {g : String} {c : Name}
    {contents : Instr} (hg : Pool.boxed g c contents ∈ pool.globals)
    (hc : c ∈ ms.hierarchy.names) (hprim : c.isPrimitive = true) {after : Memory → Memory}
    {u : Memory → Val} (hcontents : ∀ μ table,
      contents.constant? m ⟨μ, [table]⟩ = some ⟨after μ, [u μ, table]⟩) :
    ∃ w μ, st.globals g = some w ∧ Boxes st c w (u μ) ∧ (after μ).store.heap <+: st.heap := by
  obtain ⟨w, μ, hdefined⟩ := Module.defined_of_instantiate hstart hdistinct (hm.constants _ hg)
  obtain ⟨st₀, hinit⟩ := hdefined.init
  rw [constant?_boxed hm hdistinct hc hprim (hcontents ⟨st₀, fun _ => none⟩)] at hinit
  obtain ⟨table, -, heq⟩ := Option.map_eq_some_iff.mp hinit
  cases heq
  obtain ⟨new, hnew⟩ := hdefined.heap
  refine ⟨_, ⟨st₀, fun _ => none⟩, hdefined.value, ⟨_, table, rfl, ?_⟩,
    (List.prefix_append _ _).trans hdefined.heap⟩
  rw [← hnew]
  simp [Memory.alloc]

/-- A module that was started has its constants. -/
theorem loaded_of_instantiate {st : Store} (hstart : m.instantiate = some st)
    (hmem : ∀ c : Name, c.isBuiltin = true → c ∈ ms.hierarchy.names) : pool.Loaded st := by
  refine ⟨?_, fun b => ?_, fun n g hg => ?_, fun s g hg => ?_⟩
  · obtain ⟨d, hd, hname, -⟩ := hm.tableGlobal .int (hmem _ rfl)
    obtain ⟨w, μ, hdefined⟩ := Module.defined_of_instantiate hstart hdistinct hd
    exact ⟨w, hname ▸ hdefined.value⟩
  · obtain ⟨w, -, hw, hbox, -⟩ := boxes_of_instantiate hm hdistinct hstart
      (Pool.mem_globals_bool pool b) (hmem _ rfl) rfl fun _ _ => rfl
    exact ⟨w, hw, .bool hbox⟩
  · obtain ⟨w, -, hw, hbox, -⟩ := boxes_of_instantiate hm hdistinct hstart
      (Pool.mem_globals_int hg) (hmem _ rfl) rfl fun _ _ => rfl
    exact ⟨w, hw, .int hbox⟩
  · obtain ⟨w, μ, hw, hbox, new, hnew⟩ := boxes_of_instantiate hm hdistinct hstart
      (Pool.mem_globals_text hg) (hmem _ rfl) rfl fun μ table => constant?_chars s μ [table]
    refine ⟨w, hw, .string hbox ?_⟩
    rw [← hnew]
    simp [Memory.alloc]

end

end Cool.Lowering
