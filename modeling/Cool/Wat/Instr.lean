import Cool.Wat.SExpr

/-! WebAssembly instructions with managed objects and exceptions. -/

namespace Cool.Wat

/-- The types of values: 32-bit integers, and references to objects of a named type. -/
inductive ValType where
  | i32
  | ref (nullable : Bool) (type : String)
deriving DecidableEq, Repr

/-- The instructions that hold no others, by what they do. -/
inductive Op where
  | localGet (x : String)
  | localSet (x : String)
  | localTee (x : String)
  | globalGet (g : String)
  | call (f : String)
  | callRef (t : String)
  | structNew (t : String)
  | structGet (t field : String)
  | structSet (t field : String)
  | refNull (t : String)
  | refCast (t : ValType)
  | refTest (t : ValType)
  | refIsNull
  | refAsNonNull
  | refFunc (f : String)
  | refEq
  | const (n : Int32)
  | add
  | sub
  | mul
  | divS
  | ltS
  | leS
  | geU
  | eq
  | ne
  | eqz
  | and
  | or
  | arrayLen
  | arrayGetU (t : String)
  | arrayNewFixed (t : String) (size : Nat)
  | arrayNewDefault (t : String)
  | arrayCopy (target source : String)
  | select (t : ValType)
  | drop
  | throw (tag : String)
  | ret
  | unreachable
  | br (label : String)
  | brIf (label : String)
deriving DecidableEq, Repr

/-- Instructions. The operands written inside an instruction are evaluated before it. -/
inductive Instr where
  | plain (op : Op) (operands : List Instr)
  /-- Runs the body if the test is not zero. -/
  | whenTrue (test : Instr) (body : List Instr)
  /-- Runs one of two bodies, as the operand on the stack says, for a value. -/
  | ifElse (result : ValType) (onTrue onFalse : List Instr)
  | block (label : String) (results : List ValType) (body : List Instr)
  | loop (label : String) (body : List Instr)

instance : Coe Op Instr := ⟨fun op => .plain op []⟩

/-- Reads a local. -/
def getLocal (x : String) : Instr :=
  .plain (.localGet x) []

/-- An integer constant. -/
def const (n : Int32) : Instr :=
  .plain (.const n) []

end Cool.Wat
