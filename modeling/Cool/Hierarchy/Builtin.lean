import Cool.Tree.Basic

/-! The classes every program starts from. -/

namespace Cool.Builtin

/-- The file the builtin classes are said to be in. -/
def file : String := "<basic classes>"

def span : Span := ⟨file, 0⟩

def none : Expr := .noExpr ⟨span, .anonymous⟩

def formal (name type : Name) : Formal :=
  ⟨span, name, type⟩

def method (name result : Name) (formals : List Formal) : Feature :=
  .method ⟨span, name, formals, result, none⟩

def attr (name type : Name) : Feature :=
  .attr ⟨span, name, type, none⟩

def object : ClassDecl :=
  ⟨span, .object, .noClass,
    [method .abort .object [], method .typeName .string [], method .copy .selfType []]⟩

def io : ClassDecl :=
  ⟨span, .io, .object,
    [method .outString .selfType [formal .arg .string],
      method .outInt .selfType [formal .arg .int],
      method .inString .string [],
      method .inInt .int []]⟩

def int : ClassDecl :=
  ⟨span, .int, .object, [attr .val .primSlot]⟩

def bool : ClassDecl :=
  ⟨span, .bool, .object, [attr .val .primSlot]⟩

def string : ClassDecl :=
  ⟨span, .string, .object,
    [attr .val .int,
      attr .strField .primSlot,
      method .length .int [],
      method .concat .string [formal .arg .string],
      method .substr .string [formal .arg .int, formal .arg2 .int]]⟩

/-- The builtin classes in the order in which they are installed. -/
def classes : List ClassDecl :=
  [object, io, int, bool, string]

end Cool.Builtin

namespace Cool.Name

/-- Whether a name is that of a builtin class. -/
def isBuiltin (n : Name) : Bool :=
  n ∈ [object, io, int, bool, string]

end Cool.Name
