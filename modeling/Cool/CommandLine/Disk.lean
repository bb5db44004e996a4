/-! A disk: the files a command can see, and the walk along a path that finds or refuses them. -/

namespace Cool.CommandLine

/-- Why a path cannot be opened, read or written. -/
inductive PathError where
  | notFound
  | notDirectory
  | isDirectory
  | nameTooLong
  | invalid
  | denied
  | failed
deriving DecidableEq, Repr

def PathError.message : PathError → String
  | notFound => "no such file or directory"
  | notDirectory => "not a directory"
  | isDirectory => "is a directory"
  | nameTooLong => "file name too long"
  | invalid => "invalid argument"
  | denied => "permission denied"
  | failed => "input/output error"

/-- The longest part of a path, in bytes. -/
def maxPartSize : Nat := 255

/-- The longest path, in bytes. -/
def maxPathSize : Nat := 4095

/-- A place on the disk as the names that lead to it from the working directory, the last one
first. Two dots stand for a directory above, and a slash for the root. -/
abbrev Place := List String

namespace Place

/-- The place where the walk along a path starts. -/
def start (path : String) : Place :=
  if path.startsWith "/" then ["/"] else []

/-- The working directory, the directories above it, and the root. -/
def isAbove (p : Place) : Bool :=
  p = ["/"] || p.all (· = "..")

/-- The directory that holds a place. The root holds itself. -/
def parent : Place → Place
  | [] => [".."]
  | "/" :: rest => "/" :: rest
  | ".." :: rest => ".." :: ".." :: rest
  | _ :: rest => rest

end Place

/-- The parts of a path between its slashes. -/
def pathParts (path : String) : List String :=
  (path.splitOn "/").filter (· ≠ "")

/-- A path that no walk can start on. -/
def checkPath (path : String) : Except PathError Unit :=
  if path.toList.contains '\x00' then .error .invalid
  else if path = "" then .error .notFound
  else if maxPathSize < path.utf8ByteSize then .error .nameTooLong
  else .ok ()

/-- Files by their places. A directory is there if it holds a file, or lies above the working
directory. -/
structure Disk where
  files : List (Place × String) := []
deriving DecidableEq, Repr, Inhabited

namespace Disk

/-- A disk with the given files in the working directory and below it. -/
def ofList (files : List (String × String)) : Disk :=
  ⟨files.map fun (name, contents) => (((pathParts name).filter (· ≠ ".")).reverse, contents)⟩

def file? (d : Disk) (p : Place) : Option String :=
  d.files.lookup p

def hasDirectory (d : Disk) (p : Place) : Bool :=
  p.isAbove || d.files.any fun f => p <:+ f.1 && p ≠ f.1

/-- One step of a walk. Every part of a path needs a directory to be looked up in, also the dots
that stand for this directory and the one above. -/
def step (d : Disk) (p : Place) (part : String) : Except PathError Place :=
  if !d.hasDirectory p then .error .notDirectory
  else if part = "." then .ok p
  else if part = ".." then .ok p.parent
  else if maxPartSize < part.utf8ByteSize then .error .nameTooLong
  else if (d.file? (part :: p)).isSome || d.hasDirectory (part :: p) then .ok (part :: p)
  else .error .notFound

/-- The walk along parts of a path. -/
def walk (d : Disk) (p : Place) (parts : List String) : Except PathError Place :=
  parts.foldlM d.step p

/-- The contents of the file at a path. A slash at the end asks for a directory. -/
def read (d : Disk) (path : String) : Except PathError String := do
  checkPath path
  let place ← d.walk (.start path) (pathParts path)
  match d.file? place with
  | none => throw .isDirectory
  | some contents => if path.endsWith "/" then throw .notDirectory else return contents

/-- The disk with a file at a place, in the stead of one that is there. -/
def put (d : Disk) (p : Place) (contents : String) : Disk :=
  ⟨(p, contents) :: d.files.filter (·.1 ≠ p)⟩

/-- Writes a file under a name in a directory. Dots and a name before a slash mean directories,
whether they are there or not. -/
def writeIn (d : Disk) (p : Place) (name : String) (slash : Bool) (contents : String) :
    Except PathError Disk :=
  if !d.hasDirectory p then .error .notDirectory
  else if name = "." ∨ name = ".." ∨ slash then .error .isDirectory
  else if maxPartSize < name.utf8ByteSize then .error .nameTooLong
  else if d.hasDirectory (name :: p) then .error .isDirectory
  else .ok (d.put (name :: p) contents)

/-- Writes the file at a path, whose directory must be there. -/
def write (d : Disk) (path contents : String) : Except PathError Disk := do
  checkPath path
  match (pathParts path).reverse with
  | [] => throw .isDirectory
  | name :: parents =>
    let place ← d.walk (.start path) parents.reverse
    d.writeIn place name (path.endsWith "/") contents

end Disk

end Cool.CommandLine
