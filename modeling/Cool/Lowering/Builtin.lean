import Cool.Lowering.Layout

/-! The functions every module has: conversions of builtin values, string functions, equality, and
the methods of the builtin classes. -/

namespace Cool.Lowering

open Wat

/-- Reads the contents of a boxed value. -/
def unboxDefinition (cls : Name) : Func where
  name := unboxFunc cls
  exported := true
  params := [("$v", valueType cls)]
  results := [.i32]
  body := [.plain (.structGet (classType cls) valueField) [getLocal "$v"]]

/-- Boxes an integer, always as a new object. -/
def boxIntDefinition : Func where
  name := boxFunc .int
  exported := true
  params := [("$v", .i32)]
  results := [objectType .int]
  body := [.plain (.structNew (classType .int))
    [.plain (.globalGet (tableGlobal .int)) [], getLocal "$v"]]

/-- Boxes a boolean as one of the two constants. -/
def boxBoolDefinition : Func where
  name := boxFunc .bool
  exported := true
  params := [("$v", .i32)]
  results := [objectType .bool]
  body := [.plain (.select (objectType .bool))
    [.plain (.globalGet trueGlobal) [], .plain (.globalGet falseGlobal) [], getLocal "$v"]]

def boxing : List Func :=
  [unboxDefinition .int, boxIntDefinition, unboxDefinition .bool, boxBoolDefinition]

/-- The characters of a string. -/
def charsOf (s : Instr) : Instr :=
  .plain (.structGet (classType .string) charsField) [s]

def lengthDefinition : Func where
  name := lengthFunc
  exported := true
  signature := some lengthSignature
  params := [("$s", valueType .string)]
  results := [.i32]
  body := [.plain .arrayLen [charsOf (getLocal "$s")]]

def charAtDefinition : Func where
  name := charAtFunc
  exported := true
  signature := some charAtSignature
  params := [("$s", valueType .string), ("$i", .i32)]
  results := [.i32]
  body := [.plain (.arrayGetU charsType) [charsOf (getLocal "$s"), getLocal "$i"]]

/-- Leaves a function with an integer. -/
def returns (n : Int32) : Instr :=
  .plain .ret [const n]

/-- Compares two strings character by character. -/
def stringEqualsDefinition : Func where
  name := stringEqualsFunc
  exported := true
  params := [("$a", valueType .string), ("$b", valueType .string)]
  results := [.i32]
  locals := [("$x", .ref true charsType), ("$y", .ref true charsType), ("$i", .i32), ("$n", .i32)]
  body :=
    [.whenTrue (.plain .refEq [getLocal "$a", getLocal "$b"]) [returns 1],
      .whenTrue (.plain .or [.plain .refIsNull [getLocal "$a"], .plain .refIsNull [getLocal "$b"]])
        [returns 0],
      .plain (.localSet "$x") [charsOf (getLocal "$a")],
      .plain (.localSet "$y") [charsOf (getLocal "$b")],
      .plain (.localSet "$n") [.plain .arrayLen [getLocal "$x"]],
      .whenTrue (.plain .ne [getLocal "$n", .plain .arrayLen [getLocal "$y"]]) [returns 0],
      .block "$done" []
        [.loop "$next"
          [.plain (.brIf "$done") [.plain .geU [getLocal "$i", getLocal "$n"]],
            .whenTrue
              (.plain .ne
                [.plain (.arrayGetU charsType) [getLocal "$x", getLocal "$i"],
                  .plain (.arrayGetU charsType) [getLocal "$y", getLocal "$i"]])
              [returns 0],
            .plain (.localSet "$i") [.plain .add [getLocal "$i", const 1]],
            .plain (.br "$next") []]],
      const 1]

/-- Whether both operands of an equality are of a class. -/
def bothAre (cls : Name) : Instr :=
  .plain .and
    [.plain (.refTest (objectType cls)) [getLocal "$a"], .plain (.refTest (objectType cls)) [getLocal "$b"]]

def castTo (cls : Name) (x : String) : Instr :=
  .plain (.refCast (objectType cls)) [getLocal x]

/-- Compares the contents of two boxed values of a class. -/
def sameContents (cls : Name) : Instr :=
  .whenTrue (bothAre cls)
    [.plain .ret
      [.plain .eq
        [.plain (.structGet (classType cls) valueField) [castTo cls "$a"],
          .plain (.structGet (classType cls) valueField) [castTo cls "$b"]]]]

/-- Compares two objects by identity, or by contents when both are of one builtin class. -/
def objectEqualsDefinition : Func where
  name := objectEqualsFunc
  params := [("$a", valueType .object), ("$b", valueType .object)]
  results := [.i32]
  body :=
    [.whenTrue (.plain .refEq [getLocal "$a", getLocal "$b"]) [returns 1],
      sameContents .int,
      sameContents .bool,
      .whenTrue (bothAre .string)
        [.plain .ret
          [.plain (.call stringEqualsFunc) [castTo .string "$a", castTo .string "$b"]]],
      const 0]

/-- The function of a builtin method around its locals and body. -/
def builtinMethod (m : MethodEntry) (locals : List (String × ValType)) (body : List Instr) :
    Func where
  name := m.implementationId
  signature := some m.signatureId
  params := (selfLocal, valueType m.intro) ::
    m.params.map fun p => (localId p.name, valueType p.type)
  results := [valueType (resultLayout m)]
  locals := locals
  body := body

/-- The code an exception carries when a program aborts. -/
def abortCalled : Int32 := -1

/-- The code an exception carries when no branch of a case matches. -/
def abortNoBranch : Int32 := -2

/-- A new string with the given characters. -/
def newString (chars : Instr) : Instr :=
  .plain (.structNew (classType .string))
    [.plain (.globalGet (tableGlobal .string)) [], .plain .refAsNonNull [chars]]

def abortBody : List Instr :=
  [.plain (.throw abortTag) [const abortCalled]]

def outStringBody : List Instr :=
  [.plain (.call outStringHost)
      [getLocal (localId .arg), .plain (.refFunc lengthFunc) [], .plain (.refFunc charAtFunc) []],
    getLocal selfLocal]

def outIntBody : List Instr :=
  [.plain (.call outIntHost) [.plain (.call (unboxFunc .int)) [getLocal (localId .arg)]],
    getLocal selfLocal]

/-- The host provides no input. -/
def inputBody : List Instr :=
  [.plain .unreachable []]

def lengthBody : List Instr :=
  [.plain (.call (boxFunc .int)) [.plain (.call lengthFunc) [getLocal selfLocal]]]

def concatLocals : List (String × ValType) :=
  [("$l", .i32), ("$r", .i32), ("$out", .ref true charsType)]

def concatBody : List Instr :=
  [.plain (.localSet "$l") [.plain (.call lengthFunc) [getLocal selfLocal]],
    .plain (.localSet "$r") [.plain (.call lengthFunc) [getLocal (localId .arg)]],
    .plain (.localSet "$out")
      [.plain (.arrayNewDefault charsType) [.plain .add [getLocal "$l", getLocal "$r"]]],
    .plain (.arrayCopy charsType charsType)
      [getLocal "$out", const 0, charsOf (getLocal selfLocal), const 0, getLocal "$l"],
    .plain (.arrayCopy charsType charsType)
      [getLocal "$out", getLocal "$l", charsOf (getLocal (localId .arg)), const 0, getLocal "$r"],
    newString (getLocal "$out")]

def substrLocals : List (String × ValType) :=
  [("$start", .i32), ("$len", .i32), ("$out", .ref true charsType)]

/-- Bounds outside the string trap while its characters are copied. -/
def substrBody : List Instr :=
  [.plain (.localSet "$start") [.plain (.call (unboxFunc .int)) [getLocal (localId .arg)]],
    .plain (.localSet "$len") [.plain (.call (unboxFunc .int)) [getLocal (localId .arg2)]],
    .plain (.localSet "$out") [.plain (.arrayNewDefault charsType) [getLocal "$len"]],
    .plain (.arrayCopy charsType charsType)
      [getLocal "$out", const 0, charsOf (getLocal selfLocal), getLocal "$start", getLocal "$len"],
    newString (getLocal "$out")]

/-- The builtin methods with a body of their own: class, name, locals and body. -/
def builtinBodies : List (Name × Name × List (String × ValType) × List Instr) :=
  [(.object, .abort, [], abortBody),
    (.io, .outString, [], outStringBody),
    (.io, .outInt, [], outIntBody),
    (.io, .inString, [], inputBody),
    (.io, .inInt, [], inputBody),
    (.string, .length, [], lengthBody),
    (.string, .concat, concatLocals, concatBody),
    (.string, .substr, substrLocals, substrBody)]

/-- The functions of the builtin methods. -/
def builtinMethods (ms : Members) : Except Fault (List Func) :=
  builtinBodies.mapM fun (cls, name, locals, body) =>
    match ms.method? cls name cls with
    | some m => .ok (builtinMethod m locals body)
    | none => .error .absent

/-- The functions every module starts with. -/
def commonFuncs (ms : Members) : Except Fault (List Func) := do
  let methods ← builtinMethods ms
  return boxing ++
    [lengthDefinition, charAtDefinition, stringEqualsDefinition, objectEqualsDefinition] ++ methods

end Cool.Lowering
