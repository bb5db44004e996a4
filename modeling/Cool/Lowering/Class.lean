import Cool.Lowering.Expr

/-! The functions of a class: its allocators and initializer, its own bodies of copying and naming,
the functions that dispatch to its methods, and the methods it declares. -/

namespace Cool.Lowering

open Wat

namespace Site

/-- The allocator of a class. The values of builtin classes are constants; other objects start with
uninitialized attributes and are then initialized. -/
def newDefinition (site : Site) (cls : Name) : Except Fault Func := do
  let header : Func :=
    { name := newFunc cls, exported := true, results := [objectType cls], body := [] }
  if cls.isPrimitive then return { header with body := [← site.defaultValue cls] }
  let fields ← (site.members.attributes cls cls).mapM fun a =>
    site.defaultValue (attributeLayout a)
  return { header with
    locals := [("$o", valueType cls)]
    body :=
      [.plain (.localSet "$o")
          [.plain (.structNew (classType cls))
            (.plain (.globalGet (tableGlobal cls)) [] :: fields)],
        .plain (.call (initFunc cls)) [getLocal "$o"],
        .plain .refAsNonNull [getLocal "$o"]] }

/-- The allocator of a class as it stands in its table. -/
def newVirtualDefinition (cls : Name) : Func where
  name := newVirtualFunc cls
  signature := some newSignature
  results := [objectType .object]
  body := [.plain (.call (newFunc cls)) []]

/-- The initializers of attributes, in the order in which they are declared. -/
def initializers (site : Site) : List Feature → Lower (List Instr)
  | [] => return []
  | .method _ :: rest => site.initializers rest
  | .attr a :: rest => do
    if a.init.isAbsent then site.initializers rest
    else
      let want ← site.attributeClass a.name
      let init ← lowerAs site want a.init
      let others ← site.initializers rest
      return getLocal selfLocal :: init ++
        .plain (.structSet (classType site.current) (fieldId a.name)) [] :: others

/-- The initializer of a class runs that of its parent first. -/
def emitInit (site : Site) (features : List Feature) : Lower Unit := do
  let first := match site.members.hierarchy.parent? site.current with
    | some p => [.plain (.call (initFunc p)) [getLocal selfLocal]]
    | none => []
  let (own, frame) ← inFrame {} (site.initializers features)
  emit
    { name := initFunc site.current
      params := [(selfLocal, valueType site.current)]
      locals := frame.locals
      body := first ++ own }

/-- The shallow copy of an object. -/
def copyDefinition (site : Site) (cls : Name) : Except Fault Func := do
  match site.members.method? .object .copy .object with
  | none => throw .absent
  | some m =>
    let load := fun (field : String) =>
      Instr.plain (.structGet (classType cls) field) [getLocal "$o"]
    return {
      name := perClassFunc cls .copy
      signature := some m.signatureId
      params := [(selfLocal, valueType .object)]
      results := [valueType .object]
      locals := [("$o", valueType cls)]
      body :=
        [.plain (.localSet "$o") [.plain (.refCast (objectType cls)) [getLocal selfLocal]],
          .plain (.structNew (classType cls))
            (load tableField ::
              (dataFields cls (site.members.attributes cls cls)).map fun f => load f.name)] }

/-- The name of the class of an object. -/
def typeNameDefinition (site : Site) (cls : Name) : Except Fault Func := do
  match site.members.method? .object .typeName .object with
  | none => throw .absent
  | some m =>
    return {
      name := perClassFunc cls .typeName
      signature := some m.signatureId
      params := [(selfLocal, valueType .object)]
      results := [valueType .string]
      body := [.plain (.globalGet (← site.pool.text cls.text)) []] }

/-- The bodies a class has of the methods every class has its own version of. -/
def perClassDefinitions (site : Site) (cls : Name) : Except Fault (List Func) :=
  ((site.members.methods cls cls).filter isPerClass).mapM fun m =>
    if m.name = .copy then site.copyDefinition cls else site.typeNameDefinition cls

/-- The parameters of a dispatching function, numbered from `i`. -/
def numbered : Nat → List Parameter → List (String × ValType)
  | _, [] => []
  | i, p :: rest => ("$p" ++ toString i, valueType p.type) :: numbered (i + 1) rest

/-- The function that calls what the table of the receiver holds in the slot of a method. -/
def genericDefinition (cls : Name) (m : MethodEntry) : Func where
  name := m.genericId
  exported := true
  signature := some m.signatureId
  params := (selfLocal, valueType cls) :: numbered 0 m.params
  results := [valueType (resultLayout m)]
  body :=
    [.plain (.callRef m.signatureId)
      (getLocal selfLocal :: (numbered 0 m.params).map (fun p => getLocal p.1) ++
        [.plain (.structGet (tableType cls) (fieldId m.name))
          [.plain (.structGet (classType cls) tableField) [getLocal selfLocal]]])]

/-- The entry of a method that a class declares itself. -/
def ownMethod (site : Site) (m : Method) : Except Fault MethodEntry :=
  match site.members.method? site.current m.name site.current with
  | some entry =>
    if entry.definer = site.current then .ok entry
    else .error (.noSignature site.current m.name)
  | none => .error (.noSignature site.current m.name)

/-- The body of a method. An override receives the receiver as an object of the class that
introduced the method, and narrows it. -/
def emitMethod (site : Site) (m : Method) : Lower Unit := do
  let entry ← site.ownMethod m
  let cls := site.current
  let inner : Site :=
    { site with
      scope := site.scope.enterWith (m.formals.map fun f => (f.name, ⟨.local, f.type⟩)) }
  let isNew := decide (entry.intro = cls)
  let receiver := if isNew then (selfLocal, valueType cls) else (receiverLocal, valueType entry.intro)
  let narrowed := if isNew then [] else [(selfLocal, valueType cls)]
  let narrow := if isNew then [] else
    [.plain (.localSet selfLocal) [.plain (.refCast (valueType cls)) [getLocal receiverLocal]]]
  let (body, frame) ←
    inFrame { locals := narrowed } (lowerAs inner (resultLayout entry) m.body)
  emit
    { name := entry.implementationId
      signature := some entry.signatureId
      params := receiver :: m.formals.map fun f => (localId f.name, valueType f.type)
      results := [valueType (resultLayout entry)]
      locals := frame.locals
      body := narrow ++ body }

def emitMethods (site : Site) : List Feature → Lower Unit
  | [] => return ()
  | .method m :: rest => do
    site.emitMethod m
    site.emitMethods rest
  | .attr _ :: rest => site.emitMethods rest

end Site

def emitAll (fs : List Func) : Lower Unit :=
  modify fun s => { s with funcs := s.funcs ++ fs }

/-- The functions of a class, given the features it declares. -/
def emitClass (ms : Members) (pool : Pool) (cls : Name) (features : List Feature) :
    Lower Unit := do
  let attributes := (ms.attributes cls cls).map fun a => (a.name, ⟨.field, a.type⟩)
  let site : Site := ⟨ms, pool, cls, ({} : Scope Name Binding).enterWith attributes⟩
  emit (← site.newDefinition cls)
  emit (Site.newVirtualDefinition cls)
  if !cls.isPrimitive then site.emitInit features
  emitAll (← site.perClassDefinitions cls)
  emitAll (((ms.methods cls cls).filter (·.origin = .introduced)).map (Site.genericDefinition cls))
  site.emitMethods features

end Cool.Lowering
