import Cool.CommandLine.Flags
import Cool.CommandLine.Script
import Cool.Diagnostic.Listing
import Cool.Document.Decode
import Cool.Inspector
import Cool.Pipeline
import Cool.Tree.Dump
import Cool.Tree.Interning

/-! The commands of the compiler: building a module, checking a program, printing its typed tree,
and inspecting its classes. -/

namespace Cool.CommandLine

/-- The flags before the name of a command. -/
def mainFlags : List Flag :=
  [⟨"v", true⟩, ⟨"no-color", true⟩]

def mainUsage : String :=
  "Usage: coolwasm [options] <command> [arguments]\n" ++
  "\nCommands:\n" ++
  "  build <prog.json>    Compile a program to WebAssembly text\n" ++
  "  check <prog.json>    Run the semantic phases only\n" ++
  "  dump <prog.json>     Print the typed syntax tree\n" ++
  "  inspect <prog.json>  Query the class hierarchy interactively\n" ++
  "\nOptions:\n" ++
  "  -no-color\n    \tdisable coloured diagnostics\n  -v\tlog each completed phase\n"

/-- A command with its flags, its synopsis and the list of its options. -/
structure Command where
  name : String
  flags : List Flag
  synopsis : String
  options : String
deriving DecidableEq, Repr

namespace Command

def usage (c : Command) : String :=
  "Usage: coolwasm " ++ c.synopsis ++ "\n" ++ c.options

def build : Command where
  name := "build"
  flags := [⟨"o", false⟩, ⟨"indent", false⟩]
  synopsis := "build [-o file] [-indent s] <prog.json>"
  options :=
    "  -indent string\n    \tindentation per nesting level (default two spaces)\n" ++
    "  -o file\n    \twrite the module to file instead of stdout\n"

def check : Command where
  name := "check"
  flags := [⟨"source", true⟩]
  synopsis := "check [-source] <prog.json>"
  options := "  -source\n    \tprint the offending source line under each diagnostic\n"

def dump : Command where
  name := "dump"
  flags := []
  synopsis := "dump <prog.json>"
  options := ""

def inspect : Command where
  name := "inspect"
  flags := []
  synopsis := "inspect <prog.json>"
  options := ""

end Command

/-- A line of the log. -/
def logLine (s : String) : String :=
  "coolwasm: " ++ s ++ "\n"

/-- Ends after a mistake in the flags, or after help was given. -/
def refuse (usage : String) : FlagError → Script
  | .help => .err usage (.exit 0)
  | e => .err (e.message ++ "\n" ++ usage) (.exit 2)

/-- Reads files one after another and goes on with their contents. -/
def readAll : List String → List (String × String) → (Listing.Files → Script) → Script
  | [], contents, next => next fun path => contents.lookup path
  | path :: rest, contents, next =>
    .read path fun
      | .ok text => readAll rest ((path, text) :: contents) next
      | .error _ => readAll rest contents next

/-- Prints diagnostics, with the source lines they point at where these are asked for. -/
def report (source : Bool) (ds : List Diagnostic) (next : Script) : Script :=
  let paths := if source then (ds.map (·.span.file)).filter (· ≠ "") else []
  readAll paths [] fun files => .err (Listing.render { source := source } files ds) next

def decodeFailed (path message : String) : Diagnostic where
  stage := .decode
  code := .decodeFailed
  message := message
  span := ⟨path, 0⟩

/-- Why the program at a path cannot be had. A directory can be opened, but not read. -/
def unreadable (path : String) : PathError → String
  | .isDirectory => "decode program: read " ++ path ++ ": " ++ PathError.isDirectory.message
  | e => "open program: open " ++ path ++ ": " ++ e.message

/-- Reads the program at a path and goes on with it, or reports why it cannot be read. -/
def load (path : String) (next : Program → Script) : Script :=
  .read path fun
    | .error e => report false [decodeFailed path (unreadable path e)] (.exit 1)
    | .ok text =>
      match Document.decode text path with
      | .ok p => next p
      | .error e => report false [decodeFailed path e.message] (.exit 1)

/-- The log as far as it is asked for. -/
def logged (verbose : Bool) (log : List String) : String :=
  if verbose then String.join (log.map logLine) else ""

/-- Ends at a fault. -/
def crash (f : Fault) : Script :=
  .err ("panic: " ++ f.message.getD "runtime error" ++ "\n") (.exit 2)

/-- Analyzes a program, prints what was logged and reported, and goes on if it was accepted. -/
def analyzed (verbose source : Bool) (p : Program) (next : Analysis → Members → Script) : Script :=
  let a := Pipeline.analyze p
  .err (logged verbose a.log)
    (match a.verdict with
    | .accepted ms => report source a.diagnostics (next a ms)
    | .halted _ _ => report source a.diagnostics (.exit 1)
    | .fault f => crash f)

def runBuild (verbose : Bool) (given : Given) (p : Program) : Script :=
  let c := Pipeline.compile p (p.intern {}).strings (given.text "indent")
  .err (logged verbose c.log)
    (match c.result with
    | .error (.fault f) => crash f
    | .error _ => report false c.diagnostics (.exit 1)
    | .ok module =>
      report false c.diagnostics
        (if given.text "o" = "" then .out module (.exit 0)
        else
          .write (given.text "o") module fun
            | .ok () => .exit 0
            | .error e =>
              .err (logLine ("write module: open " ++ given.text "o" ++ ": " ++ e.message))
                (.exit 1)))

def runCheck (verbose : Bool) (given : Given) (p : Program) : Script :=
  analyzed verbose (given.switch "source") p fun _ _ => .exit 0

def runDump (verbose : Bool) (_ : Given) (p : Program) : Script :=
  analyzed verbose false p fun a _ => .out a.program.dump (.exit 0)

/-- Answers lines up to one that quits. -/
def answers (ms : Members) : List String → Script
  | [] => .exit 0
  | line :: rest =>
    match Inspector.eval ms line with
    | .ok text => .out text (answers ms rest)
    | .error .quit => .exit 0
    | .error r => .err (r.message ++ "\n") (answers ms rest)

/-- The lines of an input, each ended by a newline. -/
def inputLines (s : String) : List String :=
  (s.splitOn "\n").dropLast

def runInspect (verbose : Bool) (_ : Given) (p : Program) : Script :=
  analyzed verbose false p fun _ ms => .input fun text => answers ms (inputLines text)

/-- Reads the flags of a command and the program it is about, and runs it. -/
def runCommand (c : Command) (args : List String) (body : Given → Program → Script) : Script :=
  match readFlags c.flags {} args with
  | .error e => refuse c.usage e
  | .ok given =>
    match given.args with
    | [path] => load path (body given)
    | _ => .err c.usage (.exit 2)

/-- Runs the compiler with its arguments. -/
def script (args : List String) : Script :=
  match readFlags mainFlags {} args with
  | .error e => refuse mainUsage e
  | .ok given =>
    let verbose := given.switch "v"
    match given.args with
    | [] => .err mainUsage (.exit 1)
    | "build" :: args => runCommand .build args (runBuild verbose)
    | "check" :: args => runCommand .check args (runCheck verbose)
    | "dump" :: args => runCommand .dump args (runDump verbose)
    | "inspect" :: args => runCommand .inspect args (runInspect verbose)
    | command :: _ => .err ("Unknown command: " ++ command ++ "\n" ++ mainUsage) (.exit 1)

end Cool.CommandLine
