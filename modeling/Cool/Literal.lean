import Cool.Text.Quoted

/-! Integer literals: decimal tokens that denote 32-bit integers. -/

namespace Cool

/-- Why a token denotes no 32-bit integer. -/
inductive LiteralError where
  | malformed (token : String)
  | outOfRange (token : String)
deriving DecidableEq, Repr

namespace LiteralError

def token : LiteralError → String
  | malformed t => t
  | outOfRange t => t

def reason : LiteralError → String
  | malformed _ => "invalid syntax"
  | outOfRange _ => "value out of range"

def message (e : LiteralError) : String :=
  "integer literal " ++ e.token ++ ": strconv.ParseInt: parsing " ++ Text.quote e.token ++ ": " ++
    e.reason

end LiteralError

namespace Literal

/-- Reads decimal digits after a value already read. Reading stops at the first character that is
no digit and at the first value beyond 32 bits, whichever comes first. -/
def digits (token : String) : List Char → Nat → Except LiteralError Nat
  | [], n => .ok n
  | c :: rest, n =>
    if c.isDigit then
      let n := n * 10 + (c.toNat - 48)
      if n < 0x100000000 then digits token rest n else .error (.outOfRange token)
    else .error (.malformed token)

/-- The magnitude of a literal, which needs at least one digit. -/
def magnitude (token : String) : List Char → Except LiteralError Nat
  | [] => .error (.malformed token)
  | cs => digits token cs 0

/-- The value of a token: an optional sign and decimal digits, within 32 bits. -/
def parse (token : String) : Except LiteralError Int32 :=
  match token.toList with
  | '-' :: rest => do
    let n ← magnitude token rest
    if n ≤ 0x80000000 then return Int32.ofInt (-(n : Int)) else throw (.outOfRange token)
  | '+' :: rest => do
    let n ← magnitude token rest
    if n < 0x80000000 then return Int32.ofInt n else throw (.outOfRange token)
  | cs => do
    let n ← magnitude token cs
    if n < 0x80000000 then return Int32.ofInt n else throw (.outOfRange token)

end Literal

end Cool
