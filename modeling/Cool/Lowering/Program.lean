import Cool.Lowering.Class
import Cool.Wat.Render

/-! The module of a program. -/

namespace Cool.Lowering

open Wat

/-- Why there is no module: a literal that denotes no integer, or a fault. -/
inductive Failure where
  | constants (error : LiteralError)
  | fault (fault : Fault)
deriving DecidableEq, Repr

/-- A module with the pool of its constants. -/
structure Output where
  module : Module
  pool : Pool

/-- The features a class declares in a program. Those of builtin classes have no code here. -/
def declaredFeatures (program : Program) (cls : Name) : List Feature :=
  if cls.isBuiltin then []
  else
    match program.class? cls with
    | some c => c.features
    | none => []

/-- The functions of a module. -/
def functions (ms : Members) (pool : Pool) (program : Program) : Except Fault (List Func) := do
  let common ← commonFuncs ms
  let classes : Lower Unit :=
    ms.hierarchy.topological.forM fun cls => emitClass ms pool cls (declaredFeatures program cls)
  let (_, progress) ← classes.run { funcs := common }
  return progress.funcs

/-- The module of a program whose members are resolved. Class names and literals are interned in
the given table. -/
def generate (ms : Members) (strings : Interner) (program : Program) : Except Failure Output :=
  let order := ms.hierarchy.topological
  match Pool.ofProgram strings order program with
  | .error e => .error (.constants e)
  | .ok pool =>
    match functions ms pool program with
    | .error f => .error (.fault f)
    | .ok funcs =>
      .ok
        { module :=
            { imports := imports
              types := fixedTypes ++ order.flatMap (classTypes ms)
              globals := order.map (tableDefinition ms) ++ pool.globals
              funcs := funcs }
          pool := pool }

end Cool.Lowering
