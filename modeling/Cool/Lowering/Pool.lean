import Cool.Interner
import Cool.Lowering.Ids
import Cool.Tree.Walk
import Cool.Wat.Module

/-! The constants of a module. Every constant is pooled before any function is generated, so that
functions only refer to globals that exist. -/

namespace Cool.Lowering

open Wat

/-- The pooled integers and strings in the order in which they were added, and the table the
strings are interned in. -/
structure Pool where
  table : Interner
  ints : List Int32 := []
  strings : List Symbol := []
deriving DecidableEq, Repr

namespace Pool

def addInt (p : Pool) (n : Int32) : Pool :=
  if n ∈ p.ints then p else { p with ints := p.ints ++ [n] }

def addSymbol (p : Pool) (s : Symbol) : Pool :=
  if s ∈ p.strings then p else { p with strings := p.strings ++ [s] }

/-- Interns a text and pools its symbol. -/
def addText (p : Pool) (text : String) : Symbol × Pool :=
  let (s, table) := p.table.intern text
  (s, { p with table := table }.addSymbol s)

/-- The symbol of a text without pooling it. -/
def internText (p : Pool) (text : String) : Symbol × Pool :=
  let (s, table) := p.table.intern text
  (s, { p with table := table })

/-- Pools the value of an integer token. -/
def addToken (p : Pool) (token : String) : Except LiteralError Pool :=
  (Literal.parse token).map p.addInt

/-- A pool with zero and the empty string, the values of uninitialized variables. -/
def seed (table : Interner) : Pool :=
  ((({ table := table } : Pool).addInt 0).addText "").2

/-- Pools the literals of a node, unless one before it denotes no integer. -/
def visit : Visitor (Except LiteralError Pool)
  | _, .error e => (false, .error e)
  | .expr (.int _ token), .ok p => (true, p.addToken token)
  | .expr (.string _ value), .ok p => (true, .ok (p.addText value).2)
  | _, .ok p => (true, .ok p)

/-- Pools every literal of a program in source order. -/
def collect (p : Pool) (program : Program) : Except LiteralError Pool :=
  program.walk visit (.ok p)

/-- The pool of a program: the seed, the names of the classes, and the literals. -/
def ofProgram (table : Interner) (classes : List Name) (program : Program) :
    Except LiteralError Pool :=
  (classes.foldl (fun p c => (p.addText c.text).2) (seed table)).collect program

/-- The global of a pooled integer. -/
def int (p : Pool) (n : Int32) : Except Fault String :=
  if n ∈ p.ints then .ok (intGlobal n) else .error (.integerNotPooled n)

/-- The global of a pooled symbol. -/
def symbol (p : Pool) (s : Symbol) : Except Fault String :=
  match p.strings.idxOf? s with
  | some i => .ok (stringGlobal i)
  | none => .error (.stringNotPooled s.text)

/-- The global of a pooled text. -/
def text (p : Pool) (text : String) : Except Fault String :=
  match p.table.find? text with
  | some s => p.symbol s
  | none => .error (.stringNotPooled text)

/-- A constant object of a class around its contents. -/
def boxed (name : String) (cls : Name) (contents : Instr) : Global where
  name := name
  exported := true
  type := objectType cls
  init := .plain (.structNew (classType cls)) [.plain (.globalGet (tableGlobal cls)) [], contents]

def boolGlobals : List Global :=
  [boxed trueGlobal .bool (const 1), boxed falseGlobal .bool (const 0)]

def intDefinition (n : Int32) : Global :=
  boxed (intGlobal n) .int (const n)

/-- The characters of a string constant, byte by byte. -/
def chars (text : String) : Instr :=
  .plain (.arrayNewFixed charsType text.utf8ByteSize)
    (text.toUTF8.toList.map fun b => const (Int32.ofNat b.toNat))

def stringDefinitions : Nat → List Symbol → List Global
  | _, [] => []
  | i, s :: rest => boxed (stringGlobal i) .string (chars s.text) :: stringDefinitions (i + 1) rest

/-- The definitions of all constants. -/
def globals (p : Pool) : List Global :=
  boolGlobals ++ p.ints.map intDefinition ++ stringDefinitions 0 p.strings

end Pool

end Cool.Lowering
