import Cool.Text.Quoted

/-! Command line flags. A flag starts with one or two dashes, and flags end at the first other
argument or after two dashes alone. -/

namespace Cool.CommandLine

/-- A flag a command knows: a switch, or one that takes a text. -/
structure Flag where
  name : String
  isSwitch : Bool
deriving DecidableEq, Repr

/-- Why flags cannot be read. -/
inductive FlagError where
  /-- Help was asked for. -/
  | help
  | badForm (argument : String)
  | undefined (name : String)
  | needsArgument (name : String)
  | invalidSwitch (name value : String)
deriving DecidableEq, Repr

def FlagError.message : FlagError → String
  | help => ""
  | badForm argument => "bad flag syntax: " ++ argument
  | undefined name => "flag provided but not defined: -" ++ name
  | needsArgument name => "flag needs an argument: -" ++ name
  | invalidSwitch name value =>
    "invalid boolean value " ++ Text.quote value ++ " for -" ++ name ++ ": parse error"

/-- The flags that were given, the last one first, and the arguments after them. -/
structure Given where
  switches : List (String × Bool) := []
  texts : List (String × String) := []
  args : List String := []
deriving DecidableEq, Repr

namespace Given

def switch (g : Given) (name : String) : Bool :=
  (g.switches.lookup name).getD false

def text (g : Given) (name : String) : String :=
  (g.texts.lookup name).getD ""

end Given

def switchValue (s : String) : Option Bool :=
  if s ∈ ["1", "t", "T", "true", "TRUE", "True"] then some true
  else if s ∈ ["0", "f", "F", "false", "FALSE", "False"] then some false
  else none

/-- How an argument looks. -/
inductive Shape where
  | plain
  | terminator
  | malformed
  | flag (name : String) (value : Option String)
deriving DecidableEq, Repr

/-- A flag name with the value after its first equals sign. -/
def splitValue (cs : List Char) : Shape :=
  match cs.dropWhile (· ≠ '=') with
  | _ :: value => .flag (String.ofList (cs.takeWhile (· ≠ '='))) (some (String.ofList value))
  | [] => .flag (String.ofList cs) none

/-- What follows the dashes of a flag: a name that starts with neither a dash nor a sign. -/
def flagShape : List Char → Shape
  | [] => .malformed
  | c :: rest => if c = '-' ∨ c = '=' then .malformed else splitValue (c :: rest)

def shape (argument : String) : Shape :=
  match argument.toList with
  | ['-', '-'] => .terminator
  | '-' :: '-' :: rest => flagShape rest
  | '-' :: c :: rest => flagShape (c :: rest)
  | _ => .plain

/-- Reads flags after those already given. -/
def readFlags (flags : List Flag) : Given → List String → Except FlagError Given
  | given, [] => .ok given
  | given, argument :: rest =>
    match shape argument with
    | .plain => .ok { given with args := argument :: rest }
    | .terminator => .ok { given with args := rest }
    | .malformed => .error (.badForm argument)
    | .flag name value =>
      match flags.find? (·.name = name) with
      | none => .error (if name = "help" ∨ name = "h" then .help else .undefined name)
      | some flag =>
        if flag.isSwitch then
          match switchValue (value.getD "true") with
          | some b => readFlags flags { given with switches := (name, b) :: given.switches } rest
          | none => .error (.invalidSwitch name (value.getD ""))
        else
          match value, rest with
          | some v, rest => readFlags flags { given with texts := (name, v) :: given.texts } rest
          | none, v :: rest =>
            readFlags flags { given with texts := (name, v) :: given.texts } rest
          | none, [] => .error (.needsArgument name)
termination_by _ args => args.length

end Cool.CommandLine
