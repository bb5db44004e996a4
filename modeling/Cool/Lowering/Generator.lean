import Cool.Lowering.Program

/-! Generators. A generator shares the table of its strings with the reader of programs, and it may
be run again: a run clears what the one before has left, except for the table. -/

namespace Cool.Lowering

open Wat

/-- A generator for the classes of a checked program, with the pool and the progress of its last
run. -/
structure Generator where
  members : Members
  program : Program
  strings : Interner
  pool : Pool := { table := strings }
  progress : Progress := {}

namespace Generator

/-- The classes in the order in which they are generated. -/
def order (g : Generator) : List Name :=
  g.members.hierarchy.topological

/-- Starts from a new pool and no functions. -/
def reset (g : Generator) : Generator :=
  { g with pool := .seed g.strings, progress := {} }

/-- Takes over a pool together with its table. -/
def withPool (g : Generator) (pool : Pool) : Generator :=
  { g with strings := pool.table, pool := pool }

/-- Pools the names of the classes. -/
def nameClasses (g : Generator) : Generator :=
  g.withPool (g.order.foldl (fun p c => (p.addText c.text).2) g.pool)

/-- Generates the functions of all classes after those that are there. -/
def emitClasses (g : Generator) : Except Fault Progress := do
  let common ← commonFuncs g.members
  let classes : Lower Unit :=
    g.order.forM fun cls => emitClass g.members g.pool cls (declaredFeatures g.program cls)
  let (_, progress) ← classes.run { g.progress with funcs := g.progress.funcs ++ common }
  return progress

/-- The module of what was generated. -/
def module (g : Generator) : Module where
  imports := imports
  types := fixedTypes ++ g.order.flatMap (classTypes g.members)
  globals := g.order.map (tableDefinition g.members) ++ g.pool.globals
  funcs := g.progress.funcs

/-- Generates the module over the constants that are pooled. -/
def finish (g : Generator) : Except Failure Module × Generator :=
  match g.emitClasses with
  | .error f => (.error (.fault f), g)
  | .ok progress =>
    let g := { g with progress := progress }
    (.ok g.module, g)

/-- A run: pools the names of the classes and the literals of a program, and generates the
module. -/
def run (g : Generator) (literals : Program) : Except Failure Module × Generator :=
  let g := g.reset.nameClasses
  match g.pool.collect literals with
  | .error e => (.error (.constants e), g)
  | .ok pool => (g.withPool pool).finish

end Generator

end Cool.Lowering
