import Cool.CommandLine.Disk

/-! Scripts: what a command does to the world outside, step by step. -/

namespace Cool.CommandLine

/-- The steps of a command up to its exit. -/
inductive Script where
  | exit (code : Nat)
  | out (text : String) (next : Script)
  | err (text : String) (next : Script)
  /-- Reads a file, or learns why it cannot be read. -/
  | read (path : String) (next : Except PathError String → Script)
  /-- Writes a file, or learns why it cannot be written. -/
  | write (path contents : String) (next : Except PathError Unit → Script)
  /-- Reads the whole standard input. -/
  | input (next : String → Script)

/-- What a script leaves behind. -/
structure Outcome where
  code : Nat
  stdout : String := ""
  stderr : String := ""
  disk : Disk := {}
deriving DecidableEq, Repr

namespace Script

/-- Runs a script on a disk and a given input. -/
def run (stdin : String) : Script → Disk → Outcome
  | exit code, disk => { code := code, disk := disk }
  | out text next, disk =>
    let o := next.run stdin disk
    { o with stdout := text ++ o.stdout }
  | err text next, disk =>
    let o := next.run stdin disk
    { o with stderr := text ++ o.stderr }
  | read path next, disk => (next (disk.read path)).run stdin disk
  | write path contents next, disk =>
    match disk.write path contents with
    | .ok written => (next (.ok ())).run stdin written
    | .error e => (next (.error e)).run stdin disk
  | input next, disk => (next stdin).run stdin disk

end Script

end Cool.CommandLine
