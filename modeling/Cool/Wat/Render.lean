import Cool.Text.Quoted
import Cool.Wat.Module

/-! Modules as S-expressions. -/

namespace Cool.Wat

open SExpr (atom list)

def ValType.toSExpr : ValType → SExpr
  | i32 => atom "i32"
  | ref true t => list [atom "ref", atom "null", atom t]
  | ref false t => list [atom "ref", atom t]

def resultOf (t : ValType) : SExpr :=
  list [atom "result", t.toSExpr]

def paramOf (t : ValType) : SExpr :=
  list [atom "param", t.toSExpr]

/-- The keyword of an instruction and what is written after it. -/
def Op.parts : Op → List SExpr
  | localGet x => [atom "local.get", atom x]
  | localSet x => [atom "local.set", atom x]
  | localTee x => [atom "local.tee", atom x]
  | globalGet g => [atom "global.get", atom g]
  | call f => [atom "call", atom f]
  | callRef t => [atom "call_ref", atom t]
  | structNew t => [atom "struct.new", atom t]
  | structGet t field => [atom "struct.get", atom t, atom field]
  | structSet t field => [atom "struct.set", atom t, atom field]
  | refNull t => [atom "ref.null", atom t]
  | refCast t => [atom "ref.cast", t.toSExpr]
  | refTest t => [atom "ref.test", t.toSExpr]
  | refIsNull => [atom "ref.is_null"]
  | refAsNonNull => [atom "ref.as_non_null"]
  | refFunc f => [atom "ref.func", atom f]
  | refEq => [atom "ref.eq"]
  | const n => [atom "i32.const", atom (toString n.toInt)]
  | add => [atom "i32.add"]
  | sub => [atom "i32.sub"]
  | mul => [atom "i32.mul"]
  | divS => [atom "i32.div_s"]
  | ltS => [atom "i32.lt_s"]
  | leS => [atom "i32.le_s"]
  | geU => [atom "i32.ge_u"]
  | eq => [atom "i32.eq"]
  | ne => [atom "i32.ne"]
  | eqz => [atom "i32.eqz"]
  | and => [atom "i32.and"]
  | or => [atom "i32.or"]
  | arrayLen => [atom "array.len"]
  | arrayGetU t => [atom "array.get_u", atom t]
  | arrayNewFixed t size => [atom "array.new_fixed", atom t, atom (toString size)]
  | arrayNewDefault t => [atom "array.new_default", atom t]
  | arrayCopy target source => [atom "array.copy", atom target, atom source]
  | select t => [atom "select", resultOf t]
  | drop => [atom "drop"]
  | throw tag => [atom "throw", atom tag]
  | ret => [atom "return"]
  | unreachable => [atom "unreachable"]
  | br label => [atom "br", atom label]
  | brIf label => [atom "br_if", atom label]

mutual

def Instr.toSExpr : Instr → SExpr
  | .plain op operands => list (op.parts ++ Instr.toSExprs operands)
  | .whenTrue test body =>
    list [atom "if", test.toSExpr, list (atom "then" :: Instr.toSExprs body)]
  | .ifElse result onTrue onFalse =>
    list [atom "if", resultOf result, list (atom "then" :: Instr.toSExprs onTrue),
      list (atom "else" :: Instr.toSExprs onFalse)]
  | .block label results body =>
    list (atom "block" :: atom label :: results.map resultOf ++ Instr.toSExprs body)
  | .loop label body => list (atom "loop" :: atom label :: Instr.toSExprs body)
termination_by structural i => i

def Instr.toSExprs : List Instr → List SExpr
  | [] => []
  | i :: rest => i.toSExpr :: Instr.toSExprs rest
termination_by structural is => is

end

/-- The name under which a definition is exported: its own without the leading mark. -/
def exportName (name : String) : String :=
  String.ofList (name.toList.drop 1)

def exportOf (name : String) : SExpr :=
  list [atom "export", atom (Text.quote (exportName name))]

def exports (exported : Bool) (name : String) : List SExpr :=
  if exported then [exportOf name] else []

def Field.toSExpr (f : Field) : SExpr :=
  list [atom "field", atom f.name,
    if f.isMutable then list [atom "mut", f.type.toSExpr] else f.type.toSExpr]

def TypeDef.toSExpr : TypeDef → SExpr
  | .bytes name =>
    list [atom "type", atom name, list [atom "array", list [atom "mut", atom "i8"]]]
  | .func name params results =>
    list [atom "type", atom name,
      list (atom "func" :: params.map paramOf ++ results.map resultOf)]
  | .struct name super fields =>
    list [atom "type", atom name,
      list (atom "sub" :: super.toList.map atom ++
        [list (atom "struct" :: fields.map Field.toSExpr)])]

/-- The name of the host module. -/
def host : SExpr := atom "\"cool\""

def Import.toSExpr : Import → SExpr
  | .tag field id params =>
    list [atom "import", host, atom ("\"" ++ field ++ "\""),
      list (atom "tag" :: atom id :: params.map paramOf)]
  | .func field id params =>
    list [atom "import", host, atom ("\"" ++ field ++ "\""),
      list (atom "func" :: atom id :: params.map paramOf)]

def Global.toSExpr (g : Global) : SExpr :=
  list (atom "global" :: atom g.name :: exports g.exported g.name ++
    [g.type.toSExpr, g.init.toSExpr])

/-- A named parameter or local. -/
def slotOf (keyword : String) (slot : String × ValType) : SExpr :=
  list [atom keyword, atom slot.1, slot.2.toSExpr]

def Func.toSExpr (f : Func) : SExpr :=
  list (atom "func" :: atom f.name :: exports f.exported f.name ++
    f.signature.toList.map (fun t => list [atom "type", atom t]) ++
    f.params.map (slotOf "param") ++ f.results.map resultOf ++ f.locals.map (slotOf "local") ++
    Instr.toSExprs f.body)

namespace Module

def sections (m : Module) : Sections where
  imports := m.imports.map Import.toSExpr
  types := m.types.map TypeDef.toSExpr
  globals := m.globals.map Global.toSExpr
  funcs := m.funcs.map Func.toSExpr

/-- The text of a module. -/
def format (m : Module) (indent : String) : String :=
  m.sections.format indent

end Module

end Cool.Wat
