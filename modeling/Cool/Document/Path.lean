/-! Paths into a document, from its root to one of its values. -/

namespace Cool.Document

/-- One step down: to the value of a key, or to an element of a list. -/
inductive Step where
  | key (name : String)
  | index (i : Nat)
deriving DecidableEq, Repr

/-- The steps from the root, outermost first. -/
abbrev Path := List Step

namespace Path

/-- The steps after the first one. -/
def tailText : Path → String
  | [] => ""
  | .key k :: rest => "." ++ k ++ tailText rest
  | .index i :: rest => "[" ++ toString i ++ "]" ++ tailText rest

def text : Path → String
  | [] => ""
  | .key k :: rest => k ++ tailText rest
  | path => tailText path

end Path

end Cool.Document
