import Cool.Lowering.Ids
import Cool.Members.Basic
import Cool.Wat.Module

/-! The types and tables of a module: an object type and a table type for every class, each an
extension of those of its parent. -/

namespace Cool.Lowering

open Wat

/-- The class that represents an attribute. An attribute of the self type is represented by the
class that declares it, so that subclasses inherit it unchanged. -/
def attributeLayout (a : AttributeEntry) : Name :=
  if a.type = .selfType then a.owner else a.type

/-- The class that represents the result of a method slot. -/
def resultLayout (m : MethodEntry) : Name :=
  if m.result = .selfType then m.intro else m.result

/-- The host functions and the exception tag. -/
def imports : List Import :=
  [.tag "abortTag" abortTag [.i32],
    .func "outStringHelper" outStringHost
      [valueType .string, .ref false lengthSignature, .ref false charAtSignature],
    .func "outIntHelper" outIntHost [.i32]]

/-- The types every module starts with. -/
def fixedTypes : List TypeDef :=
  [.bytes charsType,
    .func newSignature [] [objectType .object],
    .func lengthSignature [valueType .string] [.i32],
    .func charAtSignature [valueType .string, .i32] [.i32]]

/-- The function type of a method slot. -/
def signatureType (m : MethodEntry) : TypeDef :=
  .func m.signatureId (valueType m.intro :: m.params.map fun p => valueType p.type)
    [valueType (resultLayout m)]

/-- The fields of the table of a class: its allocator, and a function for every method slot. -/
def tableFields (methods : List MethodEntry) : List Field :=
  ⟨newField, false, .ref false newSignature⟩ ::
    methods.map fun m => ⟨fieldId m.name, false, .ref false m.signatureId⟩

/-- The fields of an object after its table. -/
def dataFields (cls : Name) (attributes : List AttributeEntry) : List Field :=
  if cls = .int ∨ cls = .bool then [⟨valueField, false, .i32⟩]
  else if cls = .string then [⟨charsField, false, .ref false charsType⟩]
  else attributes.map fun a => ⟨fieldId a.name, true, valueType (attributeLayout a)⟩

def objectFields (cls : Name) (attributes : List AttributeEntry) : List Field :=
  ⟨tableField, false, .ref false (tableType cls)⟩ :: dataFields cls attributes

/-- The types of a class: those of the method slots it introduces, of its table and of its
objects. -/
def classTypes (ms : Members) (cls : Name) : List TypeDef :=
  let parent? := ms.hierarchy.parent? cls
  let methods := ms.methods cls cls
  (methods.filter (·.origin = .introduced)).map signatureType ++
    [.struct (tableType cls) (parent?.map tableType) (tableFields methods),
      .struct (classType cls) (parent?.map classType) (objectFields cls (ms.attributes cls cls))]

/-- Whether every class has its own body of an inherited method. -/
def isPerClass (m : MethodEntry) : Bool :=
  decide ((m.name = .copy ∨ m.name = .typeName) ∧ m.definer = .object)

/-- The function in the slot of a method in the table of a class. -/
def tableEntry (cls : Name) (m : MethodEntry) : String :=
  if isPerClass m then perClassFunc cls m.name else m.implementationId

/-- The table of a class. -/
def tableDefinition (ms : Members) (cls : Name) : Global where
  name := tableGlobal cls
  type := .ref false (tableType cls)
  init := .plain (.structNew (tableType cls))
    (.plain (.refFunc (newVirtualFunc cls)) [] ::
      (ms.methods cls cls).map fun m => .plain (.refFunc (tableEntry cls m)) [])

end Cool.Lowering
