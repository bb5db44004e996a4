import Cool.Document.Path
import Cool.Text.Quoted

/-! Why a document is no program. -/

namespace Cool.Document

/-- The kinds of nodes that are told apart by a tag. -/
inductive Tagged where
  | feature
  | expression
deriving DecidableEq, Repr

def Tagged.text : Tagged → String
  | feature => "feature"
  | expression => "expression"

inductive Error where
  /-- The text is no JSON. -/
  | malformed
  /-- The value at a path has the wrong type. -/
  | wrongType (path : Path)
  | missingField (path : Path) (key : String)
  | unknownKind (path : Path) (what : Tagged) (kind : String)
  | nullNode (path : Path)
  | emptyInteger (path : Path)
  | invalidInteger (path : Path) (token : String)
deriving DecidableEq, Repr

def Error.message : Error → String
  | malformed => "decode program"
  | wrongType [] => "decode program"
  | wrongType path => path.text
  | missingField path key => path.text ++ "." ++ key ++ ": missing field"
  | unknownKind path what kind =>
    path.text ++ ": " ++ what.text ++ " " ++ Text.quote kind ++ ": unknown kind"
  | nullNode path => path.text ++ ": expected an object, got null"
  | emptyInteger path => path.text ++ ".value: empty integer literal"
  | invalidInteger path token =>
    path.text ++ ".value: invalid integer literal " ++ Text.quote token

end Cool.Document
