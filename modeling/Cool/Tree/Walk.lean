import Cool.Tree.Basic

/-! Walking a tree from the root to the leaves, in source order. -/

namespace Cool

/-- The nodes of a tree that a walk visits. -/
inductive Node where
  | program (p : Program)
  | classDecl (c : ClassDecl)
  | method (m : Method)
  | attr (a : Attribute)
  | formal (f : Formal)
  | branch (b : Branch)
  | expr (e : Expr)

/-- A visitor sees a node, may change its state, and says whether to go on below the node. -/
abbrev Visitor (σ : Type) := Node → σ → Bool × σ

mutual

/-- Visits an expression and what it holds. Parts that are left out are not visited. -/
def Expr.walk {σ : Type} (visit : Visitor σ) : Expr → σ → σ
  | .missing, s => s
  | e@(.noExpr _), s | e@(.int _ _), s | e@(.string _ _), s | e@(.bool _ _), s
  | e@(.new _ _), s | e@(.object _ _), s => (visit (.expr e) s).2
  | e@(.block _ body), s =>
    match visit (.expr e) s with
    | (true, s) => Expr.walkAll visit body s
    | (false, s) => s
  | e@(.assign _ _ value), s =>
    match visit (.expr e) s with
    | (true, s) => value.walk visit s
    | (false, s) => s
  | e@(.dispatch _ receiver _ args), s =>
    match visit (.expr e) s with
    | (true, s) => Expr.walkAll visit args (receiver.walk visit s)
    | (false, s) => s
  | e@(.staticDispatch _ receiver _ _ args), s =>
    match visit (.expr e) s with
    | (true, s) => Expr.walkAll visit args (receiver.walk visit s)
    | (false, s) => s
  | e@(.cond _ pred onTrue onFalse), s =>
    match visit (.expr e) s with
    | (true, s) => onFalse.walk visit (onTrue.walk visit (pred.walk visit s))
    | (false, s) => s
  | e@(.loop _ pred body), s =>
    match visit (.expr e) s with
    | (true, s) => body.walk visit (pred.walk visit s)
    | (false, s) => s
  | e@(.caseOf _ scrutinee branches), s =>
    match visit (.expr e) s with
    | (true, s) => Branch.walkAll visit branches (scrutinee.walk visit s)
    | (false, s) => s
  | e@(.letIn _ _ _ init body), s =>
    match visit (.expr e) s with
    | (true, s) => body.walk visit (init.walk visit s)
    | (false, s) => s
  | e@(.binary _ _ left right), s =>
    match visit (.expr e) s with
    | (true, s) => right.walk visit (left.walk visit s)
    | (false, s) => s
  | e@(.unary _ _ operand), s =>
    match visit (.expr e) s with
    | (true, s) => operand.walk visit s
    | (false, s) => s
termination_by structural e => e

def Expr.walkAll {σ : Type} (visit : Visitor σ) : List Expr → σ → σ
  | [], s => s
  | e :: rest, s => Expr.walkAll visit rest (e.walk visit s)
termination_by structural es => es

def Branch.walkAll {σ : Type} (visit : Visitor σ) : List Branch → σ → σ
  | [], s => s
  | .mk span name type body :: rest, s =>
    match visit (.branch (.mk span name type body)) s with
    | (true, s) => Branch.walkAll visit rest (body.walk visit s)
    | (false, s) => Branch.walkAll visit rest s
termination_by structural bs => bs

end

namespace Feature

def walk {σ : Type} (visit : Visitor σ) : Feature → σ → σ
  | method m, s =>
    match visit (.method m) s with
    | (true, s) => m.body.walk visit (m.formals.foldl (fun s f => (visit (.formal f) s).2) s)
    | (false, s) => s
  | attr a, s =>
    match visit (.attr a) s with
    | (true, s) => a.init.walk visit s
    | (false, s) => s

end Feature

def ClassDecl.walk {σ : Type} (visit : Visitor σ) (c : ClassDecl) (s : σ) : σ :=
  match visit (.classDecl c) s with
  | (true, s) => c.features.foldl (fun s f => f.walk visit s) s
  | (false, s) => s

/-- Visits every node of a program, parents before their children and children in source order,
leaving out what lies below a node at which the visitor stops. -/
def Program.walk {σ : Type} (visit : Visitor σ) (p : Program) (s : σ) : σ :=
  match visit (.program p) s with
  | (true, s) => p.classes.foldl (fun s c => c.walk visit s) s
  | (false, s) => s

/-- Visits a node of any kind and what lies below it. -/
def Node.walk {σ : Type} (visit : Visitor σ) : Node → σ → σ
  | program p, s => p.walk visit s
  | classDecl c, s => c.walk visit s
  | method m, s => (Feature.method m).walk visit s
  | attr a, s => (Feature.attr a).walk visit s
  | formal f, s => (visit (.formal f) s).2
  | branch b, s => Branch.walkAll visit [b] s
  | expr e, s => e.walk visit s

end Cool
