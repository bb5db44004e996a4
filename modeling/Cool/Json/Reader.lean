import Cool.Json.Basic

/-! Reading JSON text. A reader takes one value off the front of the text and gives back what is
left; there is no value where the text breaks the grammar. -/

namespace Cool.Json.Reader

/-- How deep arrays and objects may be nested. -/
def maxDepth : Nat := 10000

def isBlank (c : Char) : Bool :=
  c = ' ' || c = '\t' || c = '\n' || c = '\r'

def skipBlanks (cs : List Char) : List Char :=
  cs.dropWhile isBlank

def hexValue (c : Char) : Option Nat :=
  let n := c.toNat
  if 48 ≤ n ∧ n ≤ 57 then some (n - 48)
  else if 97 ≤ n ∧ n ≤ 102 then some (n - 87)
  else if 65 ≤ n ∧ n ≤ 70 then some (n - 55)
  else none

def hex4 (a b c d : Char) : Option Nat := do
  return (((← hexValue a) * 16 + (← hexValue b)) * 16 + (← hexValue c)) * 16 + (← hexValue d)

/-- A piece of a string: a character, or a code unit given by its number. -/
inductive Piece where
  | char (c : Char)
  | unit (n : Nat)

/-- The character of an escape of one letter. -/
def escape : Char → Option Char
  | '"' => some '"'
  | '\\' => some '\\'
  | '/' => some '/'
  | 'b' => some (Char.ofNat 8)
  | 'f' => some (Char.ofNat 12)
  | 'n' => some '\n'
  | 'r' => some '\r'
  | 't' => some '\t'
  | _ => none

/-- The pieces of a string up to its closing quote, where `acc` holds those read backwards. -/
def pieces : List Char → List Piece → Option (List Piece × List Char)
  | [], _ => none
  | '"' :: rest, acc => some (acc.reverse, rest)
  | '\\' :: 'u' :: a :: b :: c :: d :: rest, acc =>
    match hex4 a b c d with
    | some n => pieces rest (.unit n :: acc)
    | none => none
  | '\\' :: e :: rest, acc =>
    match escape e with
    | some c => pieces rest (.char c :: acc)
    | none => none
  | c :: rest, acc =>
    if c = '\\' ∨ c.toNat < 0x20 then none else pieces rest (.char c :: acc)

def isHigh (n : Nat) : Bool :=
  decide (0xD800 ≤ n ∧ n < 0xDC00)

def isLow (n : Nat) : Bool :=
  decide (0xDC00 ≤ n ∧ n < 0xE000)

/-- The character of a code unit on its own. Half of a pair stands for the replacement
character. -/
def unitChar (n : Nat) : Char :=
  if isHigh n || isLow n then Char.ofNat 0xFFFD else Char.ofNat n

/-- Joins the code units that form pairs. -/
def join : List Piece → List Char
  | [] => []
  | .char c :: rest => c :: join rest
  | .unit a :: .unit b :: rest =>
    if isHigh a && isLow b then
      Char.ofNat (0x10000 + (a - 0xD800) * 0x400 + (b - 0xDC00)) :: join rest
    else unitChar a :: join (.unit b :: rest)
  | .unit a :: rest => unitChar a :: join rest

/-- A string after its opening quote. -/
def stringBody (cs : List Char) : Option (String × List Char) :=
  (pieces cs []).map fun (ps, rest) => (String.ofList (join ps), rest)

/-- One or more digits. -/
def digits (cs : List Char) : Option (List Char × List Char) :=
  match cs.takeWhile Char.isDigit with
  | [] => none
  | ds => some (ds, cs.dropWhile Char.isDigit)

/-- The part of a number before the point: no digit follows a leading zero. -/
def integerPart : List Char → Option (List Char × List Char)
  | '0' :: rest => some (['0'], rest)
  | cs => digits cs

def fractionPart : List Char → Option (List Char × List Char)
  | '.' :: rest => (digits rest).map fun (ds, rest) => ('.' :: ds, rest)
  | cs => some ([], cs)

def signPart : List Char → List Char × List Char
  | '+' :: rest => (['+'], rest)
  | '-' :: rest => (['-'], rest)
  | cs => ([], cs)

def exponentPart : List Char → Option (List Char × List Char)
  | c :: rest =>
    if c = 'e' ∨ c = 'E' then
      let (sign, rest) := signPart rest
      (digits rest).map fun (ds, rest) => (c :: sign ++ ds, rest)
    else some ([], c :: rest)
  | [] => some ([], [])

/-- A number as it is spelled. -/
def number (cs : List Char) : Option (String × List Char) := do
  let (sign, cs) := match cs with
    | '-' :: rest => (['-'], rest)
    | cs => ([], cs)
  let (whole, cs) ← integerPart cs
  let (fraction, cs) ← fractionPart cs
  let (exponent, cs) ← exponentPart cs
  return (String.ofList (sign ++ whole ++ fraction ++ exponent), cs)

/-- The text between two places. -/
def between (start rest : List Char) : String :=
  String.ofList (start.take (start.length - rest.length))

mutual

/-- A value below `depth` open arrays and objects. The fuel bounds the length of the text. -/
def value : Nat → Nat → List Char → Option (Json × List Char)
  | 0, _, _ => none
  | fuel + 1, depth, cs =>
    match cs with
    | '{' :: rest =>
      if depth < maxDepth then
        match skipBlanks rest with
        | '}' :: rest => some (.object (between cs rest) [], rest)
        | rest => do
          let (ms, rest) ← members fuel (depth + 1) rest
          return (.object (between cs rest) ms, rest)
      else none
    | '[' :: rest =>
      if depth < maxDepth then
        match skipBlanks rest with
        | ']' :: rest => some (.array (between cs rest) [], rest)
        | rest => do
          let (items, rest) ← elements fuel (depth + 1) rest
          return (.array (between cs rest) items, rest)
      else none
    | '"' :: rest => (stringBody rest).map fun (s, rest) => (.string s, rest)
    | 't' :: 'r' :: 'u' :: 'e' :: rest => some (.bool true, rest)
    | 'f' :: 'a' :: 'l' :: 's' :: 'e' :: rest => some (.bool false, rest)
    | 'n' :: 'u' :: 'l' :: 'l' :: rest => some (.null, rest)
    | cs => (number cs).map fun (text, rest) => (.number text, rest)
termination_by structural fuel => fuel

/-- The elements of an array up to its closing bracket; the first one starts here. -/
def elements : Nat → Nat → List Char → Option (List Json × List Char)
  | 0, _, _ => none
  | fuel + 1, depth, cs => do
    let (v, rest) ← value fuel depth cs
    match skipBlanks rest with
    | ']' :: rest => return ([v], rest)
    | ',' :: rest =>
      let (vs, rest) ← elements fuel depth (skipBlanks rest)
      return (v :: vs, rest)
    | _ => none
termination_by structural fuel => fuel

/-- The members of an object up to its closing brace; the first key starts here. -/
def members : Nat → Nat → List Char → Option (List (String × Json) × List Char)
  | 0, _, _ => none
  | fuel + 1, depth, cs =>
    match cs with
    | '"' :: rest => do
      let (key, rest) ← stringBody rest
      match skipBlanks rest with
      | ':' :: rest =>
        let (v, rest) ← value fuel depth (skipBlanks rest)
        match skipBlanks rest with
        | '}' :: rest => return ([(key, v)], rest)
        | ',' :: rest =>
          let (ms, rest) ← members fuel depth (skipBlanks rest)
          return ((key, v) :: ms, rest)
        | _ => none
      | _ => none
    | _ => none
termination_by structural fuel => fuel

end

end Cool.Json.Reader

namespace Cool.Json

/-- The first value of a text. What follows it is not looked at. -/
def read (text : String) : Option Json :=
  let cs := text.toList
  (Reader.value (2 * cs.length + 2) 0 (Reader.skipBlanks cs)).map (·.1)

end Cool.Json
