import Cool.Members.Basic
import Cool.Text.Words

/-! Questions about the classes of an analyzed program, asked by commands of one line. -/

namespace Cool.Inspector

/-- Why a command has no answer. -/
inductive Refusal where
  | quit
  | usage (synopsis : String)
  | noClass (name : String)
  | unknown (command : String)
deriving DecidableEq, Repr

def Refusal.message : Refusal → String
  | quit => "quit"
  | usage synopsis => "usage: " ++ synopsis
  | noClass name => "no class " ++ name
  | unknown command => "unknown command " ++ Text.quote command ++ " (try help)"

def help : String :=
  "commands:\n" ++
  "  classes        list classes in topological order\n" ++
  "  parent C       print the parent of C\n" ++
  "  children C     list the direct subclasses of C with their depth\n" ++
  "  sub A B        report whether A conforms to B\n" ++
  "  lub A B        print the least upper bound of A and B\n" ++
  "  methods C      list the methods of C by slot\n" ++
  "  attrs C        list the attributes of C by slot\n" ++
  "  quit           leave\n"

/-- The class of a name. -/
def classNamed (h : Hierarchy) (name : String) : Except Refusal Name :=
  if h.has (.named name) then .ok (.named name) else .error (.noClass name)

/-- The only argument of a command. -/
def oneClass (h : Hierarchy) (synopsis : String) : List String → Except Refusal Name
  | [a] => classNamed h a
  | _ => .error (.usage synopsis)

/-- The two arguments of a command. -/
def twoClasses (h : Hierarchy) (synopsis : String) : List String → Except Refusal (Name × Name)
  | [a, b] => do return (← classNamed h a, ← classNamed h b)
  | _ => .error (.usage synopsis)

def line (s : String) : String :=
  s ++ "\n"

def parameterText (p : Parameter) : String :=
  p.name.text ++ " : " ++ p.type.text

def methodText (m : MethodEntry) : String :=
  Text.padLeft 3 (toString m.slot) ++ " " ++ m.name.text ++ "(" ++
    String.intercalate ", " (m.params.map parameterText) ++ ") : " ++ m.result.text ++ " [" ++
    m.origin.text ++ ", defined in " ++ m.definer.text ++ "]"

def attributeText (a : AttributeEntry) : String :=
  Text.padLeft 3 (toString a.slot) ++ " " ++ a.name.text ++ " : " ++ a.type.text ++ " (from " ++
    a.owner.text ++ ")"

/-- The answer to a command given by its words. -/
def answer (ms : Members) : List String → Except Refusal String
  | [] => .ok ""
  | "quit" :: _ | "exit" :: _ => .error .quit
  | "help" :: _ => .ok help
  | "classes" :: _ => .ok (String.join (ms.hierarchy.topological.map fun c => line c.text))
  | "parent" :: args => do
    let c ← oneClass ms.hierarchy "parent C" args
    match ms.hierarchy.parent? c with
    | some p => return line p.text
    | none => return line (c.text ++ " is the root")
  | "children" :: args => do
    let c ← oneClass ms.hierarchy "children C" args
    return String.join ((ms.hierarchy.children c).map fun d =>
      line (d.text ++ " (depth " ++ toString (ms.hierarchy.depth d) ++ ")"))
  | "sub" :: args => do
    let (a, b) ← twoClasses ms.hierarchy "sub A B" args
    return line (if ms.hierarchy.conforms a b a then "true" else "false")
  | "lub" :: args => do
    let (a, b) ← twoClasses ms.hierarchy "lub A B" args
    return line (ms.hierarchy.join a b a).text
  | "methods" :: args => do
    let c ← oneClass ms.hierarchy "methods C" args
    return String.join ((ms.methods c c).map fun m => line (methodText m))
  | "attrs" :: args => do
    let c ← oneClass ms.hierarchy "attrs C" args
    return String.join ((ms.attributes c c).map fun a => line (attributeText a))
  | command :: _ => .error (.unknown command)

/-- The answer to a line. -/
def eval (ms : Members) (s : String) : Except Refusal String :=
  answer ms (Text.words s)

end Cool.Inspector
