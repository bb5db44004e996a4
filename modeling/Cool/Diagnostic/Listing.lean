import Cool.Diagnostic.Basic

/-! Listings: diagnostics as text for a reader, with the source line they point at. -/

namespace Cool

namespace Listing

/-- How a listing is laid out. -/
structure Style where
  color : Bool := false
  source : Bool := false
deriving DecidableEq, Repr

/-- The contents of a file, for the files that can be read. -/
abbrev Files := String → Option String

def reset : String := "\x1b[0m"

def bold : String := "\x1b[1m"

def red : String := "\x1b[31m"

def cyan : String := "\x1b[36m"

def blue : String := "\x1b[34m"

/-- The place of a diagnostic, where it has one. -/
def location (span : Span) : String :=
  if span.isValid || span.file ≠ "" then span.text ++ ": " else ""

/-- The message, marked as a note or a warning. -/
def marked (d : Diagnostic) : String :=
  match d.severity with
  | .note => "note: " ++ d.message
  | .warning => "warning: " ++ d.message
  | _ => d.message

def header (style : Style) (d : Diagnostic) : String :=
  if style.color then
    bold ++ location d.span ++ reset ++ (if d.isError then red else cyan) ++ marked d ++ reset ++
      "\n"
  else location d.span ++ marked d ++ "\n"

/-- The line a span points at, if its file can be read and is long enough. -/
def sourceLine (files : Files) (span : Span) : Option String :=
  if span.file = "" then none
  else (files span.file).bind fun contents => (contents.splitOn "\n")[span.line.toNat - 1]?

/-- The source line between two empty lines, behind a gutter with its number. -/
def excerpt (style : Style) (files : Files) (span : Span) : String :=
  match sourceLine files span with
  | none => ""
  | some line =>
    let number := toString span.line
    let gutter := String.ofList (List.replicate number.length ' ')
    let bar := if style.color then blue ++ "|" ++ reset else "|"
    " " ++ gutter ++ " " ++ bar ++ "\n" ++
      " " ++ number ++ " " ++ bar ++ " " ++ line ++ "\n" ++
      " " ++ gutter ++ " " ++ bar ++ "\n"

def remarks (d : Diagnostic) : String :=
  String.join (d.notes.map fun note => "  = note: " ++ note ++ "\n") ++
    (if d.help = "" then "" else "  = help: " ++ d.help ++ "\n")

/-- One diagnostic: its header, the source line it points at, and its remarks. -/
def entry (style : Style) (files : Files) (d : Diagnostic) : String :=
  header style d ++
    (if style.source && d.span.isValid then excerpt style files d.span else "") ++ remarks d

def render (style : Style) (files : Files) (ds : List Diagnostic) : String :=
  String.join (ds.map (entry style files))

end Listing

end Cool
