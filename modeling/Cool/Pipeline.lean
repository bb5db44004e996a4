import Cool.Hierarchy.Build
import Cool.Lowering.Program
import Cool.Members.Build
import Cool.Typing.Check

/-! The phases of a compilation. Each phase runs only if those before it reported no error. -/

namespace Cool

/-- How an analysis ended. -/
inductive Verdict where
  | accepted (members : Members)
  /-- A phase reported errors. -/
  | halted (stage : Stage) (errors : Nat)
  | fault (fault : Fault)

/-- A program with the types found for it, and what was reported and logged on the way. -/
structure Analysis where
  program : Program
  verdict : Verdict
  diagnostics : List Diagnostic
  log : List String

namespace Pipeline

def haltMessage : String := "Compilation halted due to static semantic errors"

/-- The text of a halt. -/
def haltText (stage : Stage) (errors : Nat) : String :=
  stage.text ++ ": " ++ toString errors ++ " error(s): static semantic errors"

/-- The note that ends the diagnostics of a halted analysis. -/
def haltNote (stage : Stage) : Diagnostic where
  stage := stage
  severity := .note
  code := .halted
  message := haltMessage

/-- An analysis that ends with the errors of a phase. -/
def halt (p : Program) (sink : Sink) (stage : Stage) (log : List String) : Analysis :=
  ⟨p, .halted stage sink.errorCount, (sink.record (haltNote stage)).items, log⟩

def classesLine (h : Hierarchy) : String :=
  "class table: " ++ toString h.size ++ " classes"

def membersLine (ms : Members) : String :=
  "features: " ++ toString ms.methodCount ++ " method slots, " ++ toString ms.attributeCount ++
    " attribute slots"

def checkedLine : String := "type check: ok"

/-- The warning about a program that has nowhere to start. -/
def noMain (span : Span) : Diagnostic where
  stage := .typecheck
  severity := .warning
  code := .noMain
  message := "no class " ++ Name.entryClass.text ++ " with a method " ++ Name.entryMethod.text
  span := span

/-- The end of an analysis without errors. -/
def accept (p : Program) (ms : Members) (sink : Sink) (log : List String) : Analysis :=
  let sink :=
    if ms.hasMethod .entryClass .entryMethod .entryClass then sink
    else sink.record (noMain p.span)
  ⟨p, .accepted ms, sink.items, log⟩

/-- Checks the types of a program whose members are resolved. -/
def analyzeTypes (p : Program) (ms : Members) (sink : Sink) (log : List String) : Analysis :=
  let checked := Typing.checkProgram ms p
  if checked.halted then ⟨checked.program, .fault .absent, [], log⟩
  else
    let sink := sink.recordAll (checked.reports.map Typing.diagnostic)
    if sink.hasErrors then halt checked.program sink .typecheck log
    else accept checked.program ms sink (log ++ [checkedLine])

/-- Resolves the members of a program whose hierarchy is built. -/
def analyzeMembers (p : Program) (h : Hierarchy) (sink : Sink) (log : List String) : Analysis :=
  match Members.build h with
  | .error f => ⟨p, .fault f, [], log⟩
  | .ok (ms, reports) =>
    let sink := sink.recordAll (reports.map Members.diagnostic)
    if sink.hasErrors then halt p sink .features log
    else analyzeTypes p ms sink (log ++ [membersLine ms])

/-- Builds the hierarchy, resolves the members and checks the types, up to the first phase that
reports an error. -/
def analyze (p : Program) : Analysis :=
  let (h, reports) := Hierarchy.build p
  let sink := ({} : Sink).recordAll (reports.map Hierarchy.diagnostic)
  if sink.hasErrors then halt p sink .classes []
  else analyzeMembers p h sink [classesLine h]

/-- Why a compilation gives no module. -/
inductive Error where
  | semantic (stage : Stage) (errors : Nat)
  | codegen (error : LiteralError)
  | fault (fault : Fault)
deriving DecidableEq, Repr

/-- The text of a literal that cannot be pooled. -/
def constantsText (e : LiteralError) : String :=
  "collect constants: " ++ e.message

namespace Error

def message : Error → Option String
  | semantic stage errors => some (haltText stage errors)
  | codegen e => some ("generate: " ++ constantsText e)
  | fault f => f.message

end Error

/-- What a compilation gives: the text of a module or the reason why there is none. -/
structure Compilation where
  result : Except Error String
  diagnostics : List Diagnostic
  log : List String

def codegenFailed (e : LiteralError) (span : Span) : Diagnostic where
  stage := .codegen
  code := .codegenFailed
  message := constantsText e
  span := span

def moduleLine (m : Wat.Module) : String :=
  "codegen: " ++ toString m.funcs.length ++ " functions, " ++ toString m.globals.length ++
    " globals"

/-- The indentation of a module where none is given. -/
def defaultIndent (indent : String) : String :=
  if indent = "" then "  " else indent

/-- Analyzes a program and generates its module. -/
def compile (p : Program) (strings : Interner) (indent : String) : Compilation :=
  let a := analyze p
  match a.verdict with
  | .halted stage errors => ⟨.error (.semantic stage errors), a.diagnostics, a.log⟩
  | .fault f => ⟨.error (.fault f), a.diagnostics, a.log⟩
  | .accepted ms =>
    match Lowering.generate ms strings a.program with
    | .error (.constants e) =>
      ⟨.error (.codegen e), a.diagnostics ++ [codegenFailed e p.span], a.log⟩
    | .error (.fault f) => ⟨.error (.fault f), a.diagnostics, a.log⟩
    | .ok output =>
      ⟨.ok (output.module.format (defaultIndent indent)), a.diagnostics,
        a.log ++ [moduleLine output.module]⟩

end Pipeline

end Cool
