import Cool.Lowering.Builtin
import Cool.Lowering.Frame

/-! Lowering expressions to instructions. The body of a let expression and each branch of a case run
in a function of their own, which receives the receiver and every visible local as parameters. The
locals it assigns are returned after its value, and the caller stores them back. -/

namespace Cool.Lowering

open Wat

/-- The instructions of an expression and the class whose reference they leave on the stack. The
class may lie above the static type where a method that returns the self type is called. -/
structure Code where
  instrs : List Instr
  cls : Name

/-- The parameters of a lifted function besides the receiver. -/
def liftedParams (ps : List (Name × ValType)) : List (String × ValType) :=
  ps.map fun (x, t) => (localId x, t)

/-- The locals a lifted function hands back: those it assigns, other than the variable it binds. -/
def handedBack (ps : List (Name × ValType)) (assigned : List Name) (bound : Name) :
    List (Name × ValType) :=
  ps.filter fun (x, _) => decide (x ≠ bound) && decide (x ∈ assigned)

/-- The call of a lifted function whose arguments are on the stack. What it hands back is stored
from the last to the first, which leaves the value. -/
def callLifted (name : String) (back : List (Name × ValType)) : List Instr :=
  .plain (.call name) [] :: back.reverse.map fun (x, _) => .plain (.localSet (localId x)) []

/-- A function lifted from an expression: its body leaves the value, and the locals handed back
follow. -/
def liftedFunc (name : String) (params : List (String × ValType)) (value : ValType)
    (back : List (Name × ValType)) (locals : List (String × ValType)) (body : List Instr) :
    Func where
  name := name
  params := params
  results := value :: back.map (·.2)
  locals := locals
  body := body ++ back.map fun (x, _) => getLocal (localId x)

/-- Puts an element before the first one that is not deeper. -/
def insertByDepth {α : Type} (depth : α → Nat) (a : α) : List α → List α
  | [] => [a]
  | b :: rest => if depth b ≤ depth a then a :: b :: rest else b :: insertByDepth depth a rest

/-- The deepest elements first; elements of equal depth keep their order. -/
def deepestFirst {α : Type} (depth : α → Nat) : List α → List α
  | [] => []
  | a :: rest => insertByDepth depth a (deepestFirst depth rest)

/-- A branch of a case with the lowering of its body. -/
structure Arm where
  name : Name
  guard : Name
  body : Lower (List Instr)

/-- The order in which the guards of a case are tested, so that the first match is the closest. -/
def armOrder (h : Hierarchy) (arms : List Arm) : List Arm :=
  deepestFirst (fun arm => h.depth arm.guard) arms

/-- The instruction of an operator on integers. -/
def integerOp? : BinaryOp → Option Op
  | .plus => some .add
  | .sub => some .sub
  | .mul => some .mul
  | .divide => some .divS
  | .lt => some .ltS
  | .leq => some .leS
  | .eq | .unknown _ => none

namespace Site

/-- Lowers the body of a lifted function that binds a variable, and adds the function. What it
hands back comes with it. -/
def liftBinding (site : Site) (name : String) (x type : Name) (value : Name)
    (body : Lower (List Instr)) : Lower (List (Name × ValType)) := do
  let ps ← site.typedLocals (site.localsWith x type)
  let (instrs, frame) ← inFrame {} body
  let back := handedBack ps frame.assigned x
  emit (liftedFunc name ((selfLocal, valueType site.current) :: liftedParams ps)
    (valueType value) back frame.locals instrs)
  return back

/-- The arguments of a lifted function: the receiver and the locals, with `bound` in the place of
the variable `x`. -/
def liftedArgs (site : Site) (x type : Name) (bound : Instr) : List Instr :=
  getLocal selfLocal :: (site.localsWith x type).map fun p =>
    if p.name = x then bound else getLocal (localId p.name)

/-- Lowers the branches of a case into functions, and gives the tests that call them together with
the locals they hand back. -/
def lowerArms (site : Site) (name : String) (value : Name) (label : String) :
    Nat → List Arm → Lower (List Instr × List Name)
  | _, [] => return ([], [])
  | i, arm :: rest => do
    let branch := name ++ ".branch." ++ toString i
    let back ← site.liftBinding branch arm.name arm.guard value arm.body
    let guard := objectType arm.guard
    let call :=
      site.liftedArgs arm.name arm.guard (.plain (.refCast guard) [getLocal scrutineeLocal]) ++
        callLifted branch back ++ [.plain (.br label) []]
    let test := Instr.whenTrue (.plain (.refTest guard) [getLocal scrutineeLocal]) call
    let (tests, assigned) ← site.lowerArms name value label (i + 1) rest
    return (test :: tests, back.map (·.1) ++ assigned)

/-- Reads a variable. -/
def read (site : Site) (x : Name) : Except Fault Code := do
  if x = .self then return ⟨[getLocal selfLocal], site.current⟩
  let b ← site.binding x
  match b.place with
  | .field =>
    let cls ← site.attributeClass x
    return ⟨[getLocal selfLocal, .plain (.structGet (classType site.current) (fieldId x)) []], cls⟩
  | .local => return ⟨[getLocal (localId x)], ← site.layout b.type⟩

/-- Allocates an object. One of the self type is allocated through the table of the receiver. -/
def allocate (site : Site) (type : Name) : Code :=
  if type = .selfType then
    ⟨[getLocal selfLocal,
      .plain (.structGet (classType site.current) tableField) [],
      .plain (.structGet (tableType site.current) newField) [],
      .plain (.callRef newSignature) []], .object⟩
  else ⟨[.plain (.call (newFunc type)) []], type⟩

/-- The instructions of an expression as a value of class `want`. -/
def coerced (site : Site) (want : Name) (code : Code) : List Instr :=
  code.instrs ++ site.coerce code.cls want

/-- The instructions of an expression as the contents of a builtin class. -/
def unboxed (site : Site) (cls : Name) (code : Code) : List Instr :=
  site.coerced cls code ++ [.plain (.call (unboxFunc cls)) []]

end Site

/-- Boxes the integer on the stack. -/
def boxed (instrs : List Instr) (cls : Name) : Code :=
  ⟨instrs ++ [.plain (.call (boxFunc cls)) []], cls⟩

/-- The type of an expression that must be there. -/
def typeOf : Expr → Except Fault Name
  | .missing => .error .absent
  | e => .ok e.type

mutual

/-- Lowers an expression. -/
def lower (site : Site) : Expr → Lower Code
  | .missing => fail (.noCode "<nil>")
  | .noExpr _ => fail (.noCode "*ast.NoExpr")
  | .int _ token => do
    match Literal.parse token with
    | .error e => fail (.literal e)
    | .ok n => return ⟨[.plain (.globalGet (← site.pool.int n)) []], .int⟩
  | .string _ value => do
    return ⟨[.plain (.globalGet (← site.pool.text value)) []], .string⟩
  | .bool _ value =>
    return ⟨[.plain (.globalGet (if value then trueGlobal else falseGlobal)) []], .bool⟩
  | .object _ x => site.read x
  | .assign _ x value => do
    let b ← site.binding x
    match b.place with
    | .local => do
      let want ← site.layout b.type
      let code ← lower site value
      noteAssigned [x]
      return ⟨site.coerced want code ++ [.plain (.localTee (localId x)) []], want⟩
    | .field => do
      let want ← site.attributeClass x
      let code ← lower site value
      let tmp ← freshTemp (valueType want)
      return ⟨site.coerced want code ++
        [.plain (.localSet tmp) [],
          .plain (.structSet (classType site.current) (fieldId x)) [getLocal selfLocal, getLocal tmp],
          getLocal tmp], want⟩
  | .new _ type => return site.allocate type
  | .dispatch _ receiver method args => do
    let m ← site.method (← typeOf receiver) method
    let (before, temps) ← lowerArgs site m.params args
    let code ← lower site receiver
    return ⟨before ++ site.coerced m.intro code ++ temps.map getLocal ++
      [.plain (.call m.genericId) []], resultLayout m⟩
  | .staticDispatch _ receiver target method args => do
    let m ← site.method target method
    let callee :=
      if method = .copy ∨ method = .typeName then m.genericId else m.implementationId
    let (before, temps) ← lowerArgs site m.params args
    let code ← lower site receiver
    return ⟨before ++ site.coerced m.intro code ++ temps.map getLocal ++
      [.plain (.call callee) []], resultLayout m⟩
  | .cond m pred onTrue onFalse => do
    let want ← site.layout m.type
    let test ← lower site pred
    let yes ← lower site onTrue
    let no ← lower site onFalse
    return ⟨site.unboxed .bool test ++
      [.ifElse (valueType want) (site.coerced want yes) (site.coerced want no)], want⟩
  | .loop _ pred body => do
    let leave ← freshLabel "break"
    let next ← freshLabel "loop"
    let test ← lower site pred
    let code ← lower site body
    return ⟨[.block leave []
      [.loop next
        (site.unboxed .bool test ++ [.plain .eqz [], .plain (.brIf leave) []] ++ code.instrs ++
          [.plain .drop [], .plain (.br next) []])],
      .plain (.refNull (classType .object)) []], .object⟩
  | .block _ body =>
    match body with
    | [] => return ⟨[.plain (.refNull (classType .object)) []], .object⟩
    | e :: rest => do
      let first ← lower site e
      lowerRest site first rest
  | .binary _ .eq left right => do
    let t ← typeOf left
    let l ← lower site left
    let r ← lower site right
    if t = .int ∨ t = .bool then
      return boxed (site.unboxed t l ++ site.unboxed t r ++ [.plain .eq []]) .bool
    else if t = .string then
      return boxed
        (site.coerced t l ++ site.coerced t r ++ [.plain (.call stringEqualsFunc) []]) .bool
    else return boxed (l.instrs ++ r.instrs ++ [.plain (.call objectEqualsFunc) []]) .bool
  | .binary _ op left right => do
    match integerOp? op with
    | none =>
      fail (.unknownBinary (match op with
        | .unknown i => i
        | _ => 0))
    | some instr => do
      let l ← lower site left
      let r ← lower site right
      return boxed (site.unboxed .int l ++ site.unboxed .int r ++ [.plain instr []])
        (if op.isArithmetic then .int else .bool)
  | .unary _ .neg operand => do
    let code ← lower site operand
    return boxed (const 0 :: site.unboxed .int code ++ [.plain .sub []]) .int
  | .unary _ .comp operand => do
    let code ← lower site operand
    return boxed (site.unboxed .bool code ++ [.plain .eqz []]) .bool
  | .unary _ .isvoid operand => do
    let code ← lower site operand
    return boxed (code.instrs ++ [.plain .refIsNull []]) .bool
  | .unary _ (.unknown i) _ => fail (.unknownUnary i)
  | .letIn m x type init body => do
    let declared ← site.layout type
    let first ←
      if init.isAbsent then List.singleton <$> liftM (site.defaultValue type)
      else site.coerced declared <$> lower site init
    let tmp ← freshTemp (valueType declared)
    let name ← liftedName site.current "let"
    let value ← site.layout m.type
    let inner := site.bind x type
    let back ← site.liftBinding name x type value (inner.coerced value <$> lower inner body)
    noteAssigned (back.map (·.1))
    return ⟨first ++ [.plain (.localSet tmp) []] ++ site.liftedArgs x type (getLocal tmp) ++
      callLifted name back, value⟩
  | .caseOf m scrutinee branches => do
    let code ← lower site scrutinee
    let tmp ← freshTemp (valueType .object)
    let value ← site.layout m.type
    let name ← liftedName site.current "case"
    let ps ← site.typedLocals site.locals
    let arms := armOrder site.members.hierarchy (lowerBranches site value branches)
    let label := "$#matched0"
    let (tests, assigned) ← site.lowerArms name value label 0 arms
    let back := handedBack ps assigned .anonymous
    emit (liftedFunc name
      ((selfLocal, valueType site.current) :: (scrutineeLocal, valueType .object) ::
        liftedParams ps)
      (valueType value) back []
      [.block label [valueType value]
        (tests ++ [.plain (.throw abortTag) [const abortNoBranch]])])
    noteAssigned (back.map (·.1))
    return ⟨site.coerced .object code ++ [.plain (.localSet tmp) [], getLocal selfLocal, getLocal tmp] ++
      ps.map (fun (x, _) => getLocal (localId x)) ++ callLifted name back, value⟩
termination_by structural e => e

/-- Lowers the expressions of a block after the first, whose value is dropped if others follow. -/
def lowerRest (site : Site) (before : Code) : List Expr → Lower Code
  | [] => return before
  | e :: rest => do
    let code ← lower site e
    lowerRest site ⟨before.instrs ++ .plain .drop [] :: code.instrs, code.cls⟩ rest
termination_by structural es => es

/-- Lowers arguments from left to right, each into a scratch local. -/
def lowerArgs (site : Site) (params : List Parameter) :
    List Expr → Lower (List Instr × List String)
  | [] => return ([], [])
  | e :: rest =>
    match params with
    | [] => fail .absent
    | p :: ps => do
      let code ← lower site e
      let tmp ← freshTemp (valueType p.type)
      let (instrs, temps) ← lowerArgs site ps rest
      return (site.coerced p.type code ++ .plain (.localSet tmp) [] :: instrs, tmp :: temps)
termination_by structural es => es

/-- The branches of a case, each with the lowering of its body to a value of the case. -/
def lowerBranches (site : Site) (value : Name) : List Branch → List Arm
  | [] => []
  | .mk _ x guard body :: rest =>
    let inner := site.bind x guard
    ⟨x, guard, inner.coerced value <$> lower inner body⟩ :: lowerBranches site value rest
termination_by structural bs => bs

end

/-- Lowers an expression as a value of class `want`. -/
def lowerAs (site : Site) (want : Name) (e : Expr) : Lower (List Instr) :=
  site.coerced want <$> lower site e

end Cool.Lowering
