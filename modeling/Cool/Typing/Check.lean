import Cool.Members.Basic
import Cool.Typing.Problem

/-! Type checking: every expression gets its static type, and every violation of the typing rules
is reported. Checking goes on after a violation; an ill-typed expression has the error type, which
conforms to everything, so that what encloses it is not reported for the same mistake. -/

namespace Cool.Typing

/-- What was reported so far, and whether checking came to a halt at a part that is left out. After
a halt nothing is reported or annotated any more. -/
structure Journal where
  reports : List (Report Problem) := []
  halted : Bool := false
deriving Repr

abbrev Recording := StateM Journal

def report (span : Span) (problem : Problem) : Recording Unit :=
  modify fun j => if j.halted then j else { j with reports := j.reports ++ [⟨span, problem⟩] }

/-- Reports a problem unless a condition holds. -/
def require (condition : Bool) (span : Span) (problem : Problem) : Recording Unit :=
  if condition then pure () else report span problem

def halt : Recording Unit :=
  modify fun j => { j with halted := true }

/-- The mark of an expression with its type. -/
def annotate (m : Mark) (t : Name) : Recording Mark := do
  return if (← get).halted then m else { m with type := t }

/-- An expression whose mark receives its type, together with that type. -/
def typed (m : Mark) (t : Name) (form : Mark → Expr) : Recording (Expr × Name) := do
  let m ← annotate m t
  return (form m, t)

/-- Reports a problem and gives the expression the error type. -/
def illTyped (m : Mark) (problem : Problem) (form : Mark → Expr) : Recording (Expr × Name) := do
  report m.span problem
  typed m .errType form

/-- Where an expression is checked: the members of all classes, and the class it belongs to. -/
structure Context where
  members : Members
  current : Name

namespace Context

def hierarchy (cx : Context) : Hierarchy :=
  cx.members.hierarchy

def conforms (cx : Context) (t u : Name) : Bool :=
  cx.hierarchy.conforms t u cx.current

def join (cx : Context) (t u : Name) : Name :=
  cx.hierarchy.join t u cx.current

def method? (cx : Context) (cls name : Name) : Option MethodEntry :=
  cx.members.method? cls name cx.current

/-- Whether a type is the expected one, or that of an expression already found ill-typed. -/
def isOr (expected found : Name) : Bool :=
  decide (found = expected ∨ found = .errType)

/-- Reports the arguments that do not conform to their parameters. A part that is left out has no
place to report and halts the check. -/
def checkArguments (cx : Context) : Nat → List Parameter → List (Expr × Name) → Recording Unit
  | i, p :: ps, (arg, t) :: rest => do
    if cx.conforms t p.type then pure ()
    else
      match arg.span? with
      | some span => report span (.argumentMismatch i p.name p.type t)
      | none => halt
    cx.checkArguments (i + 1) ps rest
  | _, _, _ => pure ()

/-- The type of a call. A method that returns the self type returns the type of its receiver. -/
def callType (m : MethodEntry) (receiver : Name) : Name :=
  if m.result = .selfType then receiver else m.result

/-- Checks the arguments of a call to a method of class `owner`. -/
def checkCall (cx : Context) (m : MethodEntry) (owner : Name) (span : Span)
    (args : List (Expr × Name)) : Recording Unit :=
  if args.length = m.params.length then cx.checkArguments 0 m.params args
  else report span (.argumentCount owner m.name m.params.length args.length)

/-- The rules for the operands of a binary operator. -/
def checkOperands (span : Span) (op : BinaryOp) (left right : Name) : Recording Unit :=
  if op = .eq then
    require
      (decide (left = right ∨ left = .errType ∨ right = .errType) ||
        !(left.isPrimitive || right.isPrimitive))
      span (.equality left right)
  else do
    require (isOr .int left) span (.operand .left op left)
    require (isOr .int right) span (.operand .right op right)

/-- The type of a binary operation. -/
def binaryType (op : BinaryOp) : Name :=
  if op.isArithmetic then .int else .bool

def checkOperand (span : Span) (op : UnaryOp) (t : Name) : Recording Unit :=
  match op with
  | .neg => require (isOr .int t) span (.negation t)
  | .comp => require (isOr .bool t) span (.complement t)
  | _ => pure ()

/-- The type of a unary operation. -/
def unaryType (op : UnaryOp) : Name :=
  if op = .neg then .int else .bool

/-- The scope of a variable bound inside an expression. The name of the receiver cannot be
bound. -/
def bind (scope : Scope Name Name) (name type : Name) : Scope Name Name :=
  if name = .self then scope.enter else scope.enterWith [(name, type)]

/-- The rules for the guard of a case branch. -/
def checkGuard (cx : Context) (span : Span) (name guard : Name) : Recording Unit := do
  if guard = .selfType then report span (.guardSelfType name)
  else require (cx.hierarchy.has guard) span (.guardUndefined name guard)
  require (decide (name ≠ .self)) span .branchNamedSelf

/-- The rules for the variable a let expression binds. -/
def checkLet (cx : Context) (span : Span) (name type : Name) (init : Expr) (t : Name) :
    Recording Unit := do
  if cx.members.typeDefined type then
    require (init.isAbsent || cx.conforms t type) span (.letMismatch t name type)
  else report span (.letUndefined name type)
  require (decide (name ≠ .self)) span .letNamedSelf

/-- The join of a type with those before it, if there are any. -/
def joinAfter (cx : Context) (before : Option Name) (t : Name) : Name :=
  match before with
  | none => t
  | some u => cx.join u t

end Context

/-- The type of a sequence of expressions. -/
def lastType (es : List (Expr × Name)) : Name :=
  match es.getLast? with
  | some (_, t) => t
  | none => .object

mutual

/-- Checks an expression and everything in it. -/
def check (cx : Context) (scope : Scope Name Name) : Expr → Recording (Expr × Name)
  | .missing => pure (.missing, .noType)
  | .noExpr m => typed m .noType .noExpr
  | .block m body => do
    let body ← checkAll cx scope body
    typed m (lastType body) fun m => .block m (body.map (·.1))
  | .assign m name value => do
    let (value, t) ← check cx scope value
    let form := fun m => Expr.assign m name value
    if name = .self then illTyped m .assignSelf form
    else
      match scope.lookup name with
      | none => illTyped m (.assignUndefined name) form
      | some expected =>
        if cx.conforms t expected then typed m t form
        else illTyped m (.assignMismatch t expected) form
  | .dispatch m receiver method args => do
    let (receiver, t) ← check cx scope receiver
    let args ← checkAll cx scope args
    let form := fun m => Expr.dispatch m receiver method (args.map (·.1))
    if t = .errType then typed m .errType form
    else
      match cx.method? t method with
      | none => illTyped m (.undefinedMethod method t) form
      | some entry => do
        cx.checkCall entry t m.span args
        typed m (Context.callType entry t) form
  | .staticDispatch m receiver target method args => do
    let (receiver, t) ← check cx scope receiver
    let args ← checkAll cx scope args
    let form := fun m => Expr.staticDispatch m receiver target method (args.map (·.1))
    if target = .selfType then illTyped m .staticSelfType form
    else if cx.hierarchy.has target then do
      require (cx.conforms t target) m.span (.staticReceiver t target)
      match cx.method? target method with
      | none => illTyped m (.undefinedMethod method target) form
      | some entry => do
        cx.checkCall entry target m.span args
        typed m (Context.callType entry t) form
    else illTyped m (.staticUndefined target) form
  | .cond m pred onTrue onFalse => do
    let (pred, t) ← check cx scope pred
    require (Context.isOr .bool t) m.span (.predicate t)
    let (onTrue, t₁) ← check cx scope onTrue
    let (onFalse, t₂) ← check cx scope onFalse
    typed m (cx.join t₁ t₂) fun m => .cond m pred onTrue onFalse
  | .loop m pred body => do
    let (pred, t) ← check cx scope pred
    require (Context.isOr .bool t) m.span (.predicate t)
    let (body, _) ← check cx scope body
    typed m .object fun m => .loop m pred body
  | .caseOf m scrutinee branches => do
    let (scrutinee, _) ← check cx scope scrutinee
    let (branches, t) ← checkBranches cx scope [] none branches
    typed m (t.getD .noType) fun m => .caseOf m scrutinee branches
  | .letIn m name type init body => do
    let (init, t) ← check cx scope init
    cx.checkLet m.span name type init t
    let (body, t) ← check cx (Context.bind scope name type) body
    typed m t fun m => .letIn m name type init body
  | .binary m op left right => do
    let (left, t₁) ← check cx scope left
    let (right, t₂) ← check cx scope right
    Context.checkOperands m.span op t₁ t₂
    typed m (Context.binaryType op) fun m => .binary m op left right
  | .unary m op operand => do
    let (operand, t) ← check cx scope operand
    Context.checkOperand m.span op t
    typed m (Context.unaryType op) fun m => .unary m op operand
  | .int m token => typed m .int fun m => .int m token
  | .string m value => typed m .string fun m => .string m value
  | .bool m value => typed m .bool fun m => .bool m value
  | .new m type =>
    if type = .selfType ∨ cx.hierarchy.has type then typed m type fun m => .new m type
    else illTyped m (.newUndefined type) fun m => .new m type
  | .object m name =>
    match scope.lookup name with
    | some t => typed m t fun m => .object m name
    | none => illTyped m (.undefinedVariable name) fun m => .object m name
termination_by structural e => e

/-- Checks expressions from left to right. -/
def checkAll (cx : Context) (scope : Scope Name Name) :
    List Expr → Recording (List (Expr × Name))
  | [] => pure []
  | e :: rest => do
    let e ← check cx scope e
    let rest ← checkAll cx scope rest
    return e :: rest
termination_by structural es => es

/-- Checks the branches of a case, whose type is the join of theirs. A branch whose guard occurred
before is reported and left as it is. -/
def checkBranches (cx : Context) (scope : Scope Name Name) (guards : List Name)
    (before : Option Name) : List Branch → Recording (List Branch × Option Name)
  | [] => pure ([], before)
  | .mk span name guard body :: rest =>
    if guard ∈ guards then do
      report span (.duplicateGuard guard)
      let (rest, t) ← checkBranches cx scope guards before rest
      return (.mk span name guard body :: rest, t)
    else do
      cx.checkGuard span name guard
      let (body, t) ← check cx (Context.bind scope name guard) body
      let (rest, t) ←
        checkBranches cx scope (guard :: guards) (some (cx.joinAfter before t)) rest
      return (.mk span name guard body :: rest, t)
termination_by structural bs => bs

end

/-- The scope of a method body: the receiver and the formals. -/
def methodScope (scope : Scope Name Name) (formals : List Formal) : Scope Name Name :=
  scope.enterWith
    ((.self, .selfType) ::
      (formals.filter (·.name ≠ .self)).map fun f => (f.name, f.type))

def checkMethod (cx : Context) (scope : Scope Name Name) (m : Method) : Recording Method := do
  let (body, t) ← check cx (methodScope scope m.formals) m.body
  require (!cx.members.typeDefined m.result || cx.conforms t m.result) m.span
    (.methodBody t m.result)
  return { m with body := body }

def checkAttribute (cx : Context) (scope : Scope Name Name) (a : Attribute) :
    Recording Attribute := do
  let (init, t) ← check cx (scope.enterWith [(.self, .selfType)]) a.init
  require (init.isAbsent || cx.conforms t a.type) a.span (.attributeInit t a.type)
  return { a with init := init }

def checkFeature (cx : Context) (scope : Scope Name Name) : Feature → Recording Feature
  | .method m => do return .method (← checkMethod cx scope m)
  | .attr a => do return .attr (← checkAttribute cx scope a)

/-- The scope of a class: its attributes and the receiver. -/
def classScope (attributes : List AttributeEntry) : Scope Name Name :=
  ({} : Scope Name Name).enterWith
    (attributes.map (fun a => (a.name, a.type)) ++ [(.self, .selfType)])

/-- Checks the features of an installed class in order. -/
def checkClass (ms : Members) (c : ClassDecl) : Recording ClassDecl :=
  match ms.of? c.name with
  | none => pure c
  | some own => do
    let features ← c.features.mapM (checkFeature ⟨ms, c.name⟩ (classScope own.attributes))
    return { c with features := features }

/-- A program with the types of its expressions, and what checking it found. -/
structure Checked where
  program : Program
  reports : List (Report Problem)
  halted : Bool

/-- Checks every class of a program. -/
def checkProgram (ms : Members) (p : Program) : Checked :=
  let (classes, journal) := (p.classes.mapM (checkClass ms)).run {}
  ⟨{ p with classes := classes }, journal.reports, journal.halted⟩

end Cool.Typing
