import Cool.CommandLine.Basic

/-! The program that runs a script on files and standard streams. -/

namespace Cool.CommandLine

/-- The number of an error of the operating system, which some calls report negated. -/
def errorNumber (code : UInt32) : UInt32 :=
  if code < 0x80000000 then code else 0 - code

/-- The cause behind an error of the operating system. -/
def PathError.ofError : IO.Error → PathError
  | .noFileOrDirectory _ _ _ | .noSuchThing _ _ _ => notFound
  | .permissionDenied _ _ _ => denied
  | .inappropriateType _ code _ | .invalidArgument _ code _ | .resourceExhausted _ code _
  | .illegalOperation code _ | .otherError code _ =>
    match errorNumber code with
    | 20 => notDirectory
    | 21 => isDirectory
    | 22 => invalid
    | 36 => nameTooLong
    | _ => failed
  | _ => failed

def attempt {α : Type} (action : IO α) : IO (Except PathError α) :=
  try Except.ok <$> action catch e => return .error (.ofError e)

def Script.perform : Script → IO UInt32
  | exit code => return code.toUInt32
  | out text next => do
    (← IO.getStdout).putStr text
    next.perform
  | err text next => do
    (← IO.getStderr).putStr text
    next.perform
  | read path next => do (next (← attempt (IO.FS.readFile path))).perform
  | write path contents next => do
    (next (← attempt (IO.FS.writeFile path contents))).perform
  | input next => do
    let text ← (← IO.getStdin).readToEnd
    (next text).perform

end Cool.CommandLine

def main (args : List String) : IO UInt32 :=
  (Cool.CommandLine.script args).perform
