import Cool.Document.Error
import Cool.Json.Reader
import Cool.Tree.Basic

/-! Reading a program from a document. A program is an object with a `filename` and a list of
`classes`; every node may carry a `line`, and features and expressions are told apart by `kind`. -/

namespace Cool.Document

abbrev Members := List (String × Json)

/-- The members of a node. -/
def asObject (path : Path) : Json → Except Error Members
  | .object _ ms => .ok ms
  | .null => .error (.nullNode path)
  | _ => .error (.wrongType path)

/-- A text that must be there. -/
def text (path : Path) (ms : Members) (key : String) : Except Error String :=
  match Json.field? key ms with
  | some (.string s) => .ok s
  | some _ => .error (.wrongType (path ++ [.key key]))
  | none => .error (.missingField path key)

/-- A text that is empty when it is not there. -/
def optionalText (path : Path) (ms : Members) (key : String) : Except Error String :=
  match Json.field? key ms with
  | some (.string s) => .ok s
  | some _ => .error (.wrongType (path ++ [.key key]))
  | none => .ok ""

def name (path : Path) (ms : Members) (key : String) : Except Error Name :=
  (text path ms key).map .named

/-- The integer a number spells, if it is written without fraction and exponent and fits 64 bits. -/
def wholeNumber (spelling : String) : Option Int :=
  let (negative, ds) := match spelling.toList with
    | '-' :: ds => (true, ds)
    | ds => (false, ds)
  if ds.all Char.isDigit then
    let n := ds.foldl (fun (n : Nat) c => n * 10 + (c.toNat - 48)) 0
    let i : Int := if negative then -(n : Int) else n
    if -0x8000000000000000 ≤ i ∧ i < 0x8000000000000000 then some i else none
  else none

/-- The place of a node, whose line is zero when it is not given. -/
def span (file : String) (path : Path) (ms : Members) : Except Error Span :=
  match Json.field? "line" ms with
  | none => .ok ⟨file, 0⟩
  | some (.number s) =>
    match wholeNumber s with
    | some line => .ok ⟨file, line⟩
    | none => .error (.wrongType (path ++ [.key "line"]))
  | some _ => .error (.wrongType (path ++ [.key "line"]))

/-- The token of an integer literal, given as a number or as a string of digits. -/
def integerToken (path : Path) (ms : Members) : Except Error String :=
  match Json.field? "value" ms with
  | none => .error (.missingField path "value")
  | some v =>
    if v.spelling = "" then .error (.emptyInteger path)
    else if v.spelling.toList.all Char.isDigit then .ok v.spelling
    else .error (.invalidInteger path v.spelling)

def boolean (path : Path) (ms : Members) : Except Error Bool :=
  match Json.field? "value" ms with
  | none => .error (.missingField path "value")
  | some (.bool b) => .ok b
  | some _ => .error (.wrongType (path ++ [.key "value"]))

/-- The value of a key together with a proof that it is smaller than the node that holds it. -/
def child? (ms : Members) (key : String) :
    Option { v : Json // sizeOf v < sizeOf ms } :=
  match h : Json.field? key ms with
  | some v => some ⟨v, Json.sizeOf_lt_of_field? h⟩
  | none => none

/-- The elements of a list, which is empty when it is not there. -/
def children (path : Path) (ms : Members) (key : String) :
    Except Error (List { v : Json // sizeOf v < sizeOf ms }) :=
  match child? ms key with
  | none => .ok []
  | some ⟨.array _ items, h⟩ =>
    .ok (items.attach.map fun ⟨v, member⟩ =>
      ⟨v, Nat.lt_trans (Json.sizeOf_lt_of_item member) h⟩)
  | some _ => .error (.wrongType (path ++ [.key key]))

/-- Decodes the elements of a list in order, each with its own path. -/
def decodeAll {α β : Type} (path : Path) (decode : Path → α → Except Error β) :
    Nat → List α → Except Error (List β)
  | _, [] => .ok []
  | i, v :: rest => do
    let head ← decode (path ++ [.index i]) v
    let tail ← decodeAll path decode (i + 1) rest
    return head :: tail

def binaryOf? (kind : String) : Option BinaryOp :=
  BinaryOp.all.find? (·.tag? = some kind)

def unaryOf? (kind : String) : Option UnaryOp :=
  UnaryOp.all.find? (·.tag? = some kind)

mutual

/-- Decodes an expression. The fields of a node are read in a fixed order, so that the first
mistake in that order is the one reported. -/
def expr (file : String) (path : Path) (j : Json) : Except Error Expr :=
  match j with
  | .object _ ms => do
    let kind ← text path ms "kind"
    let place ← span file path ms
    let mark : Mark := ⟨place, .anonymous⟩
    match binaryOf? kind, unaryOf? kind, kind with
    | some op, _, _ => do
      let left ← exprField file path ms "left"
      let right ← exprField file path ms "right"
      return .binary mark op left right
    | none, some op, _ => do
      let operand ← exprField file path ms "expr"
      return .unary mark op operand
    | none, none, "no_expr" => return .noExpr mark
    | none, none, "block" => do
      let body ← exprList file path ms "body"
      return .block mark body
    | none, none, "assign" => do
      let target ← name path ms "name"
      let value ← exprField file path ms "value"
      return .assign mark target value
    | none, none, "dispatch" => do
      let receiver ← exprField file path ms "receiver"
      let method ← name path ms "method"
      let args ← exprList file path ms "args"
      return .dispatch mark receiver method args
    | none, none, "static_dispatch" => do
      let receiver ← exprField file path ms "receiver"
      let method ← name path ms "method"
      let args ← exprList file path ms "args"
      let target ← name path ms "type"
      return .staticDispatch mark receiver target method args
    | none, none, "cond" => do
      let pred ← exprField file path ms "pred"
      let onTrue ← exprField file path ms "then"
      let onFalse ← exprField file path ms "else"
      return .cond mark pred onTrue onFalse
    | none, none, "loop" => do
      let pred ← exprField file path ms "pred"
      let body ← exprField file path ms "body"
      return .loop mark pred body
    | none, none, "typcase" => do
      let scrutinee ← exprField file path ms "expr"
      let branches ← branchList file path ms
      return .caseOf mark scrutinee branches
    | none, none, "let" => do
      let bound ← name path ms "name"
      let type ← name path ms "type"
      let init ← initializer file path ms place
      let body ← exprField file path ms "body"
      return .letIn mark bound type init body
    | none, none, "int" => do
      let token ← integerToken path ms
      return .int mark token
    | none, none, "string" => do
      let value ← text path ms "value"
      return .string mark value
    | none, none, "bool" => do
      let value ← boolean path ms
      return .bool mark value
    | none, none, "new" => do
      let type ← name path ms "type"
      return .new mark type
    | none, none, "object" => do
      let bound ← name path ms "name"
      return .object mark bound
    | none, none, kind => throw (.unknownKind path .expression kind)
  | .null => .error (.nullNode path)
  | _ => .error (.wrongType path)
termination_by sizeOf j
decreasing_by all_goals exact Json.sizeOf_members_lt _ _

/-- The expression of a key that must be there. -/
def exprField (file : String) (path : Path) (ms : Members) (key : String) :
    Except Error Expr :=
  match child? ms key with
  | none => .error (.missingField path key)
  | some ⟨v, _⟩ => expr file (path ++ [.key key]) v
termination_by sizeOf ms

/-- The initializer of a variable, absent at the place of its owner when it is not given. -/
def initializer (file : String) (path : Path) (ms : Members) (owner : Span) :
    Except Error Expr :=
  match child? ms "init" with
  | none => .ok (.noExpr ⟨owner, .anonymous⟩)
  | some ⟨v, _⟩ => expr file (path ++ [.key "init"]) v
termination_by sizeOf ms

def exprList (file : String) (path : Path) (ms : Members) (key : String) :
    Except Error (List Expr) := do
  let items ← children path ms key
  decodeAll (path ++ [.key key])
    (fun path ⟨v, _⟩ => expr file path v) 0 items
termination_by sizeOf ms

def branchList (file : String) (path : Path) (ms : Members) :
    Except Error (List Branch) := do
  let items ← children path ms "branches"
  decodeAll (path ++ [.key "branches"])
    (fun path ⟨v, _⟩ => branch file path v) 0 items
termination_by sizeOf ms

def branch (file : String) (path : Path) (j : Json) : Except Error Branch :=
  match j with
  | .object _ ms => do
    let place ← span file path ms
    let bound ← name path ms "name"
    let type ← name path ms "type"
    let body ← exprField file path ms "body"
    return .mk place bound type body
  | .null => .error (.nullNode path)
  | _ => .error (.wrongType path)
termination_by sizeOf j
decreasing_by all_goals exact Json.sizeOf_members_lt _ _

end

def formal (file : String) (path : Path) (j : Json) : Except Error Formal := do
  let ms ← asObject path j
  let place ← span file path ms
  let parameter ← name path ms "name"
  let type ← name path ms "type"
  return ⟨place, parameter, type⟩

def feature (file : String) (path : Path) (j : Json) : Except Error Feature := do
  let ms ← asObject path j
  let kind ← text path ms "kind"
  let place ← span file path ms
  let member ← name path ms "name"
  match kind with
  | "attr" =>
    let type ← name path ms "type"
    let init ← initializer file path ms place
    return .attr ⟨place, member, type, init⟩
  | "method" =>
    let result ← name path ms "return"
    let items ← children path ms "formals"
    let formals ← decodeAll (path ++ [.key "formals"]) (fun path v => formal file path v.1) 0 items
    let body ← exprField file path ms "body"
    return .method ⟨place, member, formals, result, body⟩
  | kind => throw (.unknownKind path .feature kind)

def classDecl (file : String) (path : Path) (j : Json) : Except Error ClassDecl := do
  let ms ← asObject path j
  let place ← span file path ms
  let className ← name path ms "name"
  let parent ← optionalText path ms "parent"
  let items ← children path ms "features"
  let features ← decodeAll (path ++ [.key "features"]) (fun path v => feature file path v.1) 0 items
  return ⟨place, className, if parent = "" then .anonymous else .named parent, features⟩

/-- Whether a letter of a root key spells a letter of a name, whatever its case. The long s is a
lower-case s as well. -/
def sameLetter (given letter : Char) : Bool :=
  given = letter || given.toLower = letter || (letter = 's' && given.toNat = 0x17F)

def sameKey (given : String) (key : String) : Bool :=
  let gs := given.toList
  let ks := key.toList
  gs.length == ks.length && (gs.zip ks).all fun (g, k) => sameLetter g k

/-- The file name and the classes of a document. -/
structure Root where
  file : String := ""
  classes : List Json := []

/-- Takes one member of the root into account: the last one of a key wins, and `null` keeps the
file name but empties the classes. -/
def Root.take (root : Root) (key : String) (v : Json) : Except Error Root :=
  if sameKey key "filename" then
    match v with
    | .string s => .ok { root with file := s }
    | .null => .ok root
    | _ => .error (.wrongType [])
  else if sameKey key "classes" then
    match v with
    | .array _ items => .ok { root with classes := items }
    | .null => .ok { root with classes := [] }
    | _ => .error (.wrongType [])
  else .ok root

def root (j : Json) : Except Error Root :=
  match j with
  | .object _ ms => ms.foldlM (fun root (key, v) => root.take key v) {}
  | .null => .ok {}
  | _ => .error (.wrongType [])

/-- The program a document value describes. Its file is the given one when it names none. -/
def program (fallback : String) (j : Json) : Except Error Program := do
  let r ← root j
  let file := if r.file = "" then fallback else r.file
  let classes ← decodeAll [.key "classes"] (classDecl file) 0 r.classes
  return ⟨⟨file, 1⟩, classes⟩

/-- The program a text describes. -/
def decode (text : String) (fallback : String := "") : Except Error Program :=
  match Json.read text with
  | none => .error .malformed
  | some j => program fallback j

end Cool.Document
