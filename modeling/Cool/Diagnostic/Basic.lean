/-! Diagnostics: what the phases report about a program, and the sink that collects them. -/

namespace Cool

/-- A line of a source file. Line zero means that no position is known. -/
structure Span where
  file : String := ""
  line : Int := 0
deriving DecidableEq, Repr, Inhabited

namespace Span

def text (s : Span) : String :=
  s.file ++ ":" ++ toString s.line

/-- A span with a positive line points into a file. -/
def isValid (s : Span) : Bool :=
  decide (0 < s.line)

end Span

/-- The phase that made a diagnostic. -/
inductive Stage where
  | decode
  | classes
  | features
  | typecheck
  | codegen
  | custom (label : String)
deriving DecidableEq, Repr

def Stage.text : Stage → String
  | decode => "decode"
  | classes => "classes"
  | features => "features"
  | typecheck => "typecheck"
  | codegen => "codegen"
  | custom label => label

/-- How grave a diagnostic is. -/
inductive Severity where
  | error
  | warning
  | note
  | custom (label : String)
deriving DecidableEq, Repr

namespace Severity

def text : Severity → String
  | error => "error"
  | warning => "warning"
  | note => "note"
  | custom label => label

def ofText : String → Severity
  | "error" => error
  | "warning" => warning
  | "note" => note
  | label => custom label

/-- A severity that was left blank counts as an error. -/
def orError : Severity → Severity
  | custom "" => error
  | s => s

end Severity

/-- A stable identifier for a kind of diagnostic. -/
inductive Code where
  | duplicateClass
  | reservedClass
  | illegalParent
  | undefinedParent
  | inheritanceCycle
  | attributeOverride
  | attributeName
  | duplicateAttribute
  | attributeType
  | duplicateMethod
  | formalType
  | formalName
  | duplicateFormal
  | returnType
  | overrideMismatch
  | typeMismatch
  | invalidOperation
  | undefinedIdentifier
  | cannotAssign
  | undefinedMethod
  | argumentCount
  | undefinedClass
  | duplicateBranch
  | reservedName
  | halted
  | noMain
  | decodeFailed
  | codegenFailed
  | custom (label : String)
deriving DecidableEq, Repr

def Code.text : Code → String
  | duplicateClass => "DEF_DUPLICATE_CLASS"
  | reservedClass => "DEF_RESERVED_CLASS_NAME"
  | illegalParent => "DEF_ILLEGAL_PARENT"
  | undefinedParent => "DEF_UNDEFINED_PARENT"
  | inheritanceCycle => "DEF_INHERITANCE_CYCLE"
  | attributeOverride => "DEF_ATTR_OVERRIDE"
  | attributeName => "DEF_ATTR_NAME"
  | duplicateAttribute => "DEF_DUPLICATE_ATTR"
  | attributeType => "DEF_ATTR_TYPE"
  | duplicateMethod => "DEF_DUPLICATE_METHOD"
  | formalType => "DEF_FORMAL_TYPE"
  | formalName => "DEF_FORMAL_NAME"
  | duplicateFormal => "DEF_DUPLICATE_FORMAL"
  | returnType => "DEF_RETURN_TYPE"
  | overrideMismatch => "DEF_OVERRIDE_MISMATCH"
  | typeMismatch => "TYPE_MISMATCH"
  | invalidOperation => "TYPE_INVALID_OPERATION"
  | undefinedIdentifier => "TYPE_UNDEFINED_IDENTIFIER"
  | cannotAssign => "TYPE_CANNOT_ASSIGN"
  | undefinedMethod => "TYPE_UNDEFINED_METHOD"
  | argumentCount => "TYPE_ARGUMENT_COUNT"
  | undefinedClass => "TYPE_UNDEFINED_CLASS"
  | duplicateBranch => "TYPE_DUPLICATE_BRANCH"
  | reservedName => "TYPE_RESERVED_NAME"
  | halted => "HALTED"
  | noMain => "NO_MAIN"
  | decodeFailed => "DECODE_FAILED"
  | codegenFailed => "CODEGEN_FAILED"
  | custom label => label

/-- A message about a place in a program, with notes and help for the reader. -/
structure Diagnostic where
  stage : Stage
  severity : Severity := .error
  code : Code
  message : String
  span : Span := {}
  notes : List String := []
  help : String := ""
deriving DecidableEq, Repr

namespace Diagnostic

/-- The place and the message on one line. -/
def text (d : Diagnostic) : String :=
  d.span.text ++ ": " ++ d.message

def isError (d : Diagnostic) : Bool :=
  d.severity = .error

end Diagnostic

/-- A problem of kind `α` found at a place. -/
structure Report (α : Type) where
  span : Span
  problem : α
deriving DecidableEq, Repr

/-- The diagnostics of one compilation in the order in which they were recorded. -/
structure Sink where
  items : List Diagnostic := []
deriving DecidableEq, Repr, Inhabited

namespace Sink

/-- Appends a diagnostic, whose severity is an error unless it says otherwise. -/
def record (s : Sink) (d : Diagnostic) : Sink :=
  ⟨s.items ++ [{ d with severity := d.severity.orError }]⟩

def recordAll (s : Sink) (ds : List Diagnostic) : Sink :=
  ds.foldl record s

def errorCount (s : Sink) : Nat :=
  s.items.countP Diagnostic.isError

/-- Whether an error was recorded. Notes and warnings do not count. -/
def hasErrors (s : Sink) : Bool :=
  decide (0 < s.errorCount)

end Sink

end Cool
