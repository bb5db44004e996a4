import Cool.Name
import Cool.Wat.Instr

/-! The identifiers of a generated module. -/

namespace Cool.Lowering

open Wat

def charsType : String := "$charsArr"

def newSignature : String := "$#new.signature"

def lengthSignature : String := "$String.helper.length.signature"

def charAtSignature : String := "$String.helper.charAt.signature"

/-- The field of an object that holds the table of its class. -/
def tableField : String := "$#vt"

/-- The field of a table that holds the allocator of its class. -/
def newField : String := "$#new"

/-- The field of a boxed integer or boolean. -/
def valueField : String := "$_val"

/-- The field of a string. -/
def charsField : String := "$chars"

def abortTag : String := "$abortTag"

def outStringHost : String := "$outStringHelper"

def outIntHost : String := "$outIntHelper"

def lengthFunc : String := "$String.helper.length"

def charAtFunc : String := "$String.helper.charAt"

def stringEqualsFunc : String := "$String.helper.equals"

def objectEqualsFunc : String := "$Object.helper.equals"

def trueGlobal : String := "$bool.const.true"

def falseGlobal : String := "$bool.const.false"

def selfLocal : String := "$self"

/-- The receiver of an override before it is narrowed to the class. -/
def receiverLocal : String := "$#recv"

/-- The value a case selects on. -/
def scrutineeLocal : String := "$#scrut"

def classType (c : Name) : String :=
  "$" ++ c.text

def tableType (c : Name) : String :=
  "$" ++ c.text ++ "#vtable"

def tableGlobal (c : Name) : String :=
  "$" ++ c.text ++ ".vtable.canon"

def newFunc (c : Name) : String :=
  "$" ++ c.text ++ ".new"

def newVirtualFunc (c : Name) : String :=
  "$" ++ c.text ++ ".new.virtual"

def initFunc (c : Name) : String :=
  "$" ++ c.text ++ ".init"

def unboxFunc (c : Name) : String :=
  "$" ++ c.text ++ ".helper.toI32"

def boxFunc (c : Name) : String :=
  "$" ++ c.text ++ ".helper.fromI32"

/-- The body of a method that every class has its own version of. -/
def perClassFunc (c method : Name) : String :=
  "$" ++ c.text ++ "." ++ method.text ++ ".implementation"

/-- The field of an attribute or of a method slot. -/
def fieldId (x : Name) : String :=
  "$" ++ x.text

/-- The local of a variable. -/
def localId (x : Name) : String :=
  "$" ++ x.text

def intGlobal (n : Int32) : String :=
  "$int.const." ++ toString n.toInt

def stringGlobal (index : Nat) : String :=
  "$str.const." ++ toString index

/-- A variable of a class, which may be void. -/
def valueType (c : Name) : ValType :=
  .ref true (classType c)

/-- A value of a class that is not void. -/
def objectType (c : Name) : ValType :=
  .ref false (classType c)

end Cool.Lowering
