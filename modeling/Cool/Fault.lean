import Cool.Literal
import Cool.Name
import Cool.Scope

/-! Faults: the ways in which a phase refuses to go on because what it was given breaks a promise
of an earlier phase. -/

namespace Cool

/-- What makes a phase stop without an answer. -/
inductive Fault where
  /-- The members of an invalid hierarchy were asked for. -/
  | invalidHierarchy
  | notInstalled (cls : Name)
  | noLayout (type : Name)
  | unbound (name : Name)
  | noMethod (cls method : Name)
  | noSignature (cls method : Name)
  /-- An expression that has no code, named by its kind. -/
  | noCode (kind : String)
  | unknownBinary (index : Int)
  | unknownUnary (index : Int)
  | integerNotPooled (value : Int32)
  | stringNotPooled (text : String)
  | literal (error : LiteralError)
  /-- A value of the named kind was put into an S-expression. -/
  | unplaceable (kind : String)
  | scope (error : ScopeError)
  /-- Something that had to be there is absent. -/
  | absent
deriving DecidableEq, Repr

/-- How an index that is outside a table of the given size is reported. -/
def indexOutOfRange (index : Int) (size : Nat) : String :=
  if index < 0 then "runtime error: index out of range [" ++ toString index ++ "]"
  else
    "runtime error: index out of range [" ++ toString index ++ "] with length " ++ toString size

/-- The text shown for an operator that has no name, after the letter of the text directive. -/
def namelessOperator (directive : String) (index : Int) (size : Nat) : String :=
  "%!" ++ directive ++ "(PANIC=String method: " ++ indexOutOfRange index size ++ ")"

namespace Fault

/-- The text of a fault. The absence of something has no text. -/
def message : Fault → Option String
  | invalidHierarchy => some "types: feature environment built over an invalid class table"
  | notInstalled c => some ("types: class " ++ c.text ++ " is not installed")
  | noLayout t => some ("wat: no layout for type " ++ t.text)
  | unbound x => some ("wat: identifier " ++ x.text ++ " is not bound")
  | noMethod c m => some ("wat: class " ++ c.text ++ " has no method " ++ m.text)
  | noSignature c m => some ("wat: method " ++ c.text ++ "." ++ m.text ++ " has no signature")
  | noCode kind => some ("wat: cannot generate " ++ kind)
  | unknownBinary i => some ("wat: unknown binary operator " ++ namelessOperator "v" i 7)
  | unknownUnary i => some ("wat: unknown unary operator " ++ namelessOperator "v" i 3)
  | integerNotPooled v =>
    some ("wat: integer constant " ++ toString v.toInt ++ " was not interned")
  | stringNotPooled s => some ("wat: string constant " ++ Text.quote s ++ " was not interned")
  | literal e => some ("wat: " ++ e.message)
  | unplaceable kind => some ("wat: cannot place " ++ kind ++ " in a list")
  | scope e => some e.message
  | absent => none

end Fault

end Cool
