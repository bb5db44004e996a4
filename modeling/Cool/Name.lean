/-! Names of classes, features and variables, and the names the language reserves. -/

namespace Cool

/-- A name in a program. `anonymous` stands where no name is given: the parent of a class that
names none, the type of an expression that was not checked. -/
inductive Name where
  | anonymous
  | named (text : String)
deriving DecidableEq, Repr, Inhabited

namespace Name

def text : Name → String
  | anonymous => "<nil>"
  | named s => s

instance : ToString Name := ⟨text⟩

def object : Name := named "Object"

def io : Name := named "IO"

def int : Name := named "Int"

def bool : Name := named "Bool"

def string : Name := named "String"

/-- The type that stands for the class an expression is evaluated in. -/
def selfType : Name := named "SELF_TYPE"

def self : Name := named "self"

/-- The class a program starts in. -/
def entryClass : Name := named "Main"

/-- The method a program starts with. -/
def entryMethod : Name := named "main"

def abort : Name := named "abort"

def typeName : Name := named "type_name"

def copy : Name := named "copy"

def outString : Name := named "out_string"

def outInt : Name := named "out_int"

def inString : Name := named "in_string"

def inInt : Name := named "in_int"

def length : Name := named "length"

def concat : Name := named "concat"

def substr : Name := named "substr"

def arg : Name := named "arg"

def arg2 : Name := named "arg2"

def val : Name := named "_val"

def strField : Name := named "_str_field"

/-- The type of the raw contents of a builtin value. -/
def primSlot : Name := named "_prim_slot"

/-- The type of an absent expression. -/
def noType : Name := named "_no_type"

/-- The parent of the root class. -/
def noClass : Name := named "_no_class"

/-- The type of an ill-typed expression. It conforms both ways, so that a mistake is reported
once. -/
def errType : Name := named "err_type"

/-- The classes whose values are compared by content. -/
def isPrimitive (n : Name) : Bool :=
  n = int || n = bool || n = string

end Name

end Cool
