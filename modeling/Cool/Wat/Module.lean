import Cool.Wat.Instr

/-! WebAssembly modules. -/

namespace Cool.Wat

structure Field where
  name : String
  isMutable : Bool := false
  type : ValType
deriving DecidableEq, Repr

inductive TypeDef where
  /-- An array of bytes. -/
  | bytes (name : String)
  | func (name : String) (params results : List ValType)
  /-- An object type, which may extend another. -/
  | struct (name : String) (super : Option String) (fields : List Field)
deriving DecidableEq, Repr

/-- What a module takes from its host. -/
inductive Import where
  | tag (field id : String) (params : List ValType)
  | func (field id : String) (params : List ValType)
deriving DecidableEq, Repr

structure Global where
  name : String
  exported : Bool := false
  type : ValType
  init : Instr

structure Func where
  name : String
  exported : Bool := false
  /-- The declared type of the function, where it has one. -/
  signature : Option String := none
  params : List (String × ValType) := []
  results : List ValType := []
  locals : List (String × ValType) := []
  body : List Instr

structure Module where
  imports : List Import
  types : List TypeDef
  globals : List Global
  funcs : List Func

end Cool.Wat
