import Cool.Tree.Walk

/-! The nodes of a tree from the root to the leaves. A walk calls its visitor on a node and then goes
on to the parts of the node, so one whose visitor changes nothing once it stopped is a fold over the
nodes. -/

namespace Cool

mutual

/-- An expression and everything in it, in source order. -/
def Expr.nodes : Expr → List Node
  | .missing => []
  | .noExpr m => [.expr (.noExpr m)]
  | .int m token => [.expr (.int m token)]
  | .string m value => [.expr (.string m value)]
  | .bool m value => [.expr (.bool m value)]
  | .new m type => [.expr (.new m type)]
  | .object m name => [.expr (.object m name)]
  | .block m body => .expr (.block m body) :: Expr.nodesAll body
  | .assign m name value => .expr (.assign m name value) :: value.nodes
  | .dispatch m receiver method args =>
    .expr (.dispatch m receiver method args) :: (receiver.nodes ++ Expr.nodesAll args)
  | .staticDispatch m receiver target method args =>
    .expr (.staticDispatch m receiver target method args) ::
      (receiver.nodes ++ Expr.nodesAll args)
  | .cond m pred onTrue onFalse =>
    .expr (.cond m pred onTrue onFalse) :: (pred.nodes ++ onTrue.nodes ++ onFalse.nodes)
  | .loop m pred body => .expr (.loop m pred body) :: (pred.nodes ++ body.nodes)
  | .caseOf m scrutinee branches =>
    .expr (.caseOf m scrutinee branches) :: (scrutinee.nodes ++ Branch.nodesAll branches)
  | .letIn m name type init body =>
    .expr (.letIn m name type init body) :: (init.nodes ++ body.nodes)
  | .binary m op left right => .expr (.binary m op left right) :: (left.nodes ++ right.nodes)
  | .unary m op operand => .expr (.unary m op operand) :: operand.nodes
termination_by structural e => e

def Expr.nodesAll : List Expr → List Node
  | [] => []
  | e :: rest => e.nodes ++ Expr.nodesAll rest
termination_by structural es => es

def Branch.nodesAll : List Branch → List Node
  | [] => []
  | .mk span name type body :: rest =>
    .branch (.mk span name type body) :: (body.nodes ++ Branch.nodesAll rest)
termination_by structural bs => bs

end

def Feature.nodes : Feature → List Node
  | .method m => .method m :: (m.formals.map .formal ++ m.body.nodes)
  | .attr a => .attr a :: a.init.nodes

def ClassDecl.nodes (c : ClassDecl) : List Node :=
  .classDecl c :: c.features.flatMap Feature.nodes

def Program.nodes (p : Program) : List Node :=
  .program p :: p.classes.flatMap ClassDecl.nodes

/-! ## Parts -/

/-- The parts of an expression in source order, those that are left out among them. -/
def Expr.children : Expr → List Node
  | .missing | .noExpr _ | .int _ _ | .string _ _ | .bool _ _ | .new _ _ | .object _ _ => []
  | .block _ body => body.map .expr
  | .assign _ _ value => [.expr value]
  | .dispatch _ receiver _ args => .expr receiver :: args.map .expr
  | .staticDispatch _ receiver _ _ args => .expr receiver :: args.map .expr
  | .cond _ pred onTrue onFalse => [.expr pred, .expr onTrue, .expr onFalse]
  | .loop _ pred body => [.expr pred, .expr body]
  | .caseOf _ scrutinee branches => .expr scrutinee :: branches.map .branch
  | .letIn _ _ _ init body => [.expr init, .expr body]
  | .binary _ _ left right => [.expr left, .expr right]
  | .unary _ _ operand => [.expr operand]

def Feature.node : Feature → Node
  | .method m => .method m
  | .attr a => .attr a

namespace Node

/-- The parts of a node in source order, those that are left out among them. -/
def children : Node → List Node
  | program p => p.classes.map .classDecl
  | classDecl c => c.features.map Feature.node
  | method m => m.formals.map .formal ++ [.expr m.body]
  | attr a => [.expr a.init]
  | formal _ => []
  | branch b => [.expr b.body]
  | expr e => e.children

/-- Whether a node is there, and not a part that is left out. -/
def isPresent : Node → Bool
  | expr .missing => false
  | _ => true

/-- A node and everything in it, in source order. -/
def nodes : Node → List Node
  | program p => p.nodes
  | classDecl c => c.nodes
  | method m => (Feature.method m).nodes
  | attr a => (Feature.attr a).nodes
  | formal f => [.formal f]
  | branch b => Branch.nodesAll [b]
  | expr e => e.nodes

/-- Walks over several nodes one after the other. -/
def walkAll {σ : Type} (visit : Visitor σ) (ns : List Node) (s : σ) : σ :=
  ns.foldl (fun s n => n.walk visit s) s

end Node

section

variable {σ : Type} (visit : Visitor σ)

theorem Expr.walkAll_eq (es : List Expr) (s : σ) :
    Expr.walkAll visit es s = Node.walkAll visit (es.map .expr) s := by
  induction es generalizing s with
  | nil => rfl
  | cons e es ih => exact ih (e.walk visit s)

theorem Branch.walkAll_eq (bs : List Branch) (s : σ) :
    Branch.walkAll visit bs s = Node.walkAll visit (bs.map .branch) s := by
  induction bs generalizing s with
  | nil => rfl
  | cons b bs ih =>
      have hstep : Branch.walkAll visit (b :: bs) s =
          Branch.walkAll visit bs ((Node.branch b).walk visit s) := by
        obtain ⟨span, name, type, body⟩ := b
        rw [Node.walk, Branch.walkAll, Branch.walkAll]
        cases visit (.branch (.mk span name type body)) s with
        | mk answer s => cases answer <;> rfl
      rw [hstep, ih]
      rfl

theorem Expr.walk_eq (e : Expr) (s : σ) :
    e.walk visit s =
      if (Node.expr e).isPresent then
        if (visit (.expr e) s).1 then Node.walkAll visit e.children (visit (.expr e) s).2
        else (visit (.expr e) s).2
      else s := by
  cases e with
  | missing => rfl
  | noExpr | int | string | bool | new | object => exact (ite_self _).symm
  | block m body =>
      rw [Expr.walk]
      rcases visit (.expr (.block m body)) s with ⟨_ | _, s⟩
      · rfl
      · exact Expr.walkAll_eq visit body s
  | dispatch m receiver method args =>
      rw [Expr.walk]
      rcases visit (.expr (.dispatch m receiver method args)) s with ⟨_ | _, s⟩
      · rfl
      · exact Expr.walkAll_eq visit args _
  | staticDispatch m receiver target method args =>
      rw [Expr.walk]
      rcases visit (.expr (.staticDispatch m receiver target method args)) s with ⟨_ | _, s⟩
      · rfl
      · exact Expr.walkAll_eq visit args _
  | caseOf m scrutinee branches =>
      rw [Expr.walk]
      rcases visit (.expr (.caseOf m scrutinee branches)) s with ⟨_ | _, s⟩
      · rfl
      · exact Branch.walkAll_eq visit branches _
  | assign | cond | loop | letIn | binary | unary =>
      rw [Expr.walk]
      split
      all_goals
        rename_i hanswer
        rw [hanswer]
        rfl

namespace Node

/-- A walk calls the visitor on the node, if it is there, and goes on to the parts of the node if
the answer is `true`. -/
theorem walk_eq (n : Node) (s : σ) :
    n.walk visit s =
      if n.isPresent then
        if (visit n s).1 then walkAll visit n.children (visit n s).2 else (visit n s).2
      else s := by
  cases n with
  | program p =>
      rw [walk, Program.walk]
      rcases visit (.program p) s with ⟨_ | _, s⟩
      · rfl
      · show p.classes.foldl (fun s c => c.walk visit s) s = walkAll visit (p.classes.map _) s
        rw [walkAll, List.foldl_map]
        rfl
  | classDecl c =>
      rw [walk, ClassDecl.walk]
      rcases visit (.classDecl c) s with ⟨_ | _, s⟩
      · rfl
      · have hfeature : ∀ (f : Feature) s, f.node.walk visit s = f.walk visit s := by
          rintro (m | a) s <;> rfl
        show c.features.foldl (fun s f => f.walk visit s) s = walkAll visit (c.features.map _) s
        rw [walkAll, List.foldl_map]
        simp only [hfeature]
  | method m =>
      rw [walk, Feature.walk]
      rcases visit (.method m) s with ⟨_ | _, s⟩
      · rfl
      · show m.body.walk visit (m.formals.foldl _ s) = walkAll visit (m.formals.map _ ++ [_]) s
        rw [walkAll, List.foldl_append, List.foldl_map]
        rfl
  | attr a =>
      rw [walk, Feature.walk]
      rcases visit (.attr a) s with ⟨_ | _, s⟩ <;> rfl
  | formal f => exact (ite_self _).symm
  | branch b =>
      obtain ⟨span, name, type, body⟩ := b
      rw [walk, Branch.walkAll]
      rcases visit (.branch (.mk span name type body)) s with ⟨_ | _, s⟩ <;> rfl
  | expr e => exact Expr.walk_eq visit e s

end Node

end

theorem Expr.nodesAll_eq (es : List Expr) :
    Expr.nodesAll es = (es.map Node.expr).flatMap Node.nodes := by
  induction es with
  | nil => rfl
  | cons e es ih =>
      rw [Expr.nodesAll, ih]
      rfl

theorem Branch.nodesAll_eq (bs : List Branch) :
    Branch.nodesAll bs = (bs.map Node.branch).flatMap Node.nodes := by
  induction bs with
  | nil => rfl
  | cons b bs ih =>
      obtain ⟨span, name, type, body⟩ := b
      rw [Branch.nodesAll, ih]
      simp [Node.nodes, Branch.nodesAll]

theorem Expr.nodes_eq (e : Expr) :
    e.nodes =
      if (Node.expr e).isPresent then .expr e :: e.children.flatMap Node.nodes else [] := by
  cases e with
  | missing | noExpr | int | string | bool | new | object => rfl
  | block | dispatch | staticDispatch => 
      simp [Expr.nodes, Expr.nodesAll_eq, Node.isPresent, Expr.children, Node.nodes]
  | caseOf => simp [Expr.nodes, Branch.nodesAll_eq, Node.isPresent, Expr.children, Node.nodes]
  | assign | cond | loop | letIn | binary | unary =>
      simp [Expr.nodes, Node.isPresent, Expr.children, Node.nodes]

namespace Node

theorem nodes_eq (n : Node) :
    n.nodes = if n.isPresent then n :: n.children.flatMap nodes else [] := by
  cases n with
  | program p => simp [nodes, Program.nodes, isPresent, children, List.flatMap_map]
  | classDecl c =>
      have hfeature : ∀ f : Feature, f.node.nodes = f.nodes := by
        rintro (m | a) <;> rfl
      rw [nodes, ClassDecl.nodes, children, List.flatMap_map]
      simp only [hfeature]
      rfl
  | method m =>
      have hformals : (m.formals.map formal).flatMap nodes = m.formals.map formal := by
        rw [List.flatMap_map]
        exact List.map_eq_flatMap.symm
      rw [nodes, Feature.nodes, children, List.flatMap_append, hformals, List.flatMap_singleton]
      rfl
  | attr a => simp [nodes, Feature.nodes, isPresent, children]
  | formal f => rfl
  | branch b =>
      obtain ⟨span, name, type, body⟩ := b
      simp [nodes, Branch.nodesAll, isPresent, children, Branch.body]
  | expr e => exact Expr.nodes_eq e

theorem sizeOf_lt_of_mem_map {α : Type} [SizeOf α] {node : α → Node} {as : List α} {c : Node}
    (hnode : ∀ a, sizeOf (node a) ≤ 1 + sizeOf a) (hc : c ∈ as.map node) :
    sizeOf c < 1 + sizeOf as := by
  obtain ⟨a, ha, rfl⟩ := List.mem_map.mp hc
  have hlt := List.sizeOf_lt_of_mem ha
  have hle := hnode a
  omega

theorem sizeOf_lt_of_mem_exprChildren {e : Expr} {c : Node} (hc : c ∈ e.children) :
    sizeOf c < 1 + sizeOf e := by
  cases e with
  | missing | noExpr | int | string | bool | new | object => cases hc
  | block =>
      have hlt := sizeOf_lt_of_mem_map (fun _ => Nat.le_refl _) hc
      rw [Expr.block.sizeOf_spec]
      omega
  | dispatch | staticDispatch | caseOf =>
      rcases List.mem_cons.mp hc with rfl | hc
      · simp only [expr.sizeOf_spec, Expr.dispatch.sizeOf_spec, Expr.staticDispatch.sizeOf_spec,
          Expr.caseOf.sizeOf_spec]
        omega
      · have hlt := sizeOf_lt_of_mem_map (fun _ => Nat.le_refl _) hc
        simp only [Expr.dispatch.sizeOf_spec, Expr.staticDispatch.sizeOf_spec,
          Expr.caseOf.sizeOf_spec]
        omega
  | assign | unary =>
      obtain rfl := List.mem_singleton.mp hc
      simp only [expr.sizeOf_spec, Expr.assign.sizeOf_spec, Expr.unary.sizeOf_spec]
      omega
  | loop | letIn | binary =>
      simp only [Expr.children, List.mem_cons, List.not_mem_nil, or_false] at hc
      simp only [Expr.loop.sizeOf_spec, Expr.letIn.sizeOf_spec, Expr.binary.sizeOf_spec]
      rcases hc with rfl | rfl <;> rw [expr.sizeOf_spec] <;> omega
  | cond =>
      simp only [Expr.children, List.mem_cons, List.not_mem_nil, or_false] at hc
      rw [Expr.cond.sizeOf_spec]
      rcases hc with rfl | rfl | rfl <;> rw [expr.sizeOf_spec] <;> omega

theorem sizeOf_lt_of_mem_children {n c : Node} (hc : c ∈ n.children) : sizeOf c < sizeOf n := by
  cases n with
  | program p =>
      obtain ⟨span, classes⟩ := p
      have hlt : sizeOf c < 1 + sizeOf classes := sizeOf_lt_of_mem_map (fun _ => Nat.le_refl _) hc
      rw [program.sizeOf_spec, Program.mk.sizeOf_spec]
      omega
  | classDecl d =>
      obtain ⟨span, name, parent, features⟩ := d
      have hnode : ∀ f : Feature, sizeOf f.node ≤ 1 + sizeOf f := by
        rintro (m | a)
        · rw [Feature.node, method.sizeOf_spec, Feature.method.sizeOf_spec]
          omega
        · rw [Feature.node, attr.sizeOf_spec, Feature.attr.sizeOf_spec]
          omega
      have hlt : sizeOf c < 1 + sizeOf features := sizeOf_lt_of_mem_map hnode hc
      rw [classDecl.sizeOf_spec, ClassDecl.mk.sizeOf_spec]
      omega
  | method m =>
      obtain ⟨span, name, formals, result, body⟩ := m
      rw [method.sizeOf_spec, Method.mk.sizeOf_spec]
      rcases List.mem_append.mp hc with hc | hc
      · have hlt : sizeOf c < 1 + sizeOf formals := sizeOf_lt_of_mem_map (fun _ => Nat.le_refl _) hc
        omega
      · obtain rfl : c = .expr body := List.mem_singleton.mp hc
        rw [expr.sizeOf_spec]
        omega
  | attr a =>
      obtain ⟨span, name, type, init⟩ := a
      obtain rfl : c = .expr init := List.mem_singleton.mp hc
      rw [attr.sizeOf_spec, Attribute.mk.sizeOf_spec, expr.sizeOf_spec]
      omega
  | formal f => cases hc
  | branch b =>
      obtain ⟨span, name, type, body⟩ := b
      obtain rfl : c = .expr body := List.mem_singleton.mp hc
      rw [branch.sizeOf_spec, Branch.mk.sizeOf_spec, expr.sizeOf_spec]
      omega
  | expr e => exact sizeOf_lt_of_mem_exprChildren hc

/-- What holds of a node whenever it holds of its parts holds of every node. -/
theorem children_induction {P : Node → Prop} (step : ∀ n, (∀ c ∈ n.children, P c) → P n)
    (n : Node) : P n :=
  (measure (sizeOf : Node → Nat)).wf.induction n fun n ih =>
    step n fun c hc => ih c (sizeOf_lt_of_mem_children hc)

end Node

/-! ## Folds -/

/-- The token of an integer literal. -/
def Node.token? : Node → Option String
  | .expr (.int _ token) => some token
  | _ => none

/-- Whether the operator of a node has a name, if there is one. -/
def Node.inRange : Node → Bool
  | .expr (.binary _ op _ _) => op.tag?.isSome
  | .expr (.unary _ op _) => op.tag?.isSome
  | _ => true

/-- The state after visiting nodes one after the other. -/
def Visitor.fold {σ : Type} (visit : Visitor σ) (ns : List Node) (s : σ) : σ :=
  ns.foldl (fun s n => (visit n s).2) s

/-- Once the visitor stops, no node changes its state any more. -/
def Visitor.IsFinal {σ : Type} (visit : Visitor σ) : Prop :=
  ∀ n s, (visit n s).1 = false → ∀ n', (visit n' (visit n s).2).2 = (visit n s).2

section

variable {σ : Type} {visit : Visitor σ}

@[simp] theorem Visitor.fold_append (ns ns' : List Node) (s : σ) :
    visit.fold (ns ++ ns') s = visit.fold ns' (visit.fold ns s) :=
  List.foldl_append

theorem Visitor.fold_of_fixed {s : σ} (hs : ∀ n, (visit n s).2 = s) (ns : List Node) :
    visit.fold ns s = s := by
  induction ns with
  | nil => rfl
  | cons n ns ih =>
      rw [fold, List.foldl_cons, hs n]
      exact ih

theorem Visitor.fold_cons {n : Node} {s s' : σ} (hn : visit n s = (true, s')) (ns : List Node) :
    visit.fold (n :: ns) s = visit.fold ns s' := by
  rw [fold, List.foldl_cons, hn]
  rfl

theorem Visitor.IsFinal.fixed (hv : visit.IsFinal) {n : Node} {s s' : σ}
    (hn : visit n s = (false, s')) (n' : Node) : (visit n' s').2 = s' := by
  have hfix := hv n s (by rw [hn]) n'
  rwa [hn] at hfix

theorem Visitor.IsFinal.fold_cons (hv : visit.IsFinal) {n : Node} {s s' : σ}
    (hn : visit n s = (false, s')) (ns : List Node) : visit.fold (n :: ns) s = s' := by
  rw [fold, List.foldl_cons, hn]
  exact fold_of_fixed (hv.fixed hn) ns

theorem Visitor.walkAll_eq_fold {ns : List Node}
    (hns : ∀ n ∈ ns, ∀ s, n.walk visit s = visit.fold n.nodes s) (s : σ) :
    Node.walkAll visit ns s = visit.fold (ns.flatMap Node.nodes) s := by
  induction ns generalizing s with
  | nil => rfl
  | cons n ns ih =>
      obtain ⟨hn, hns⟩ := List.forall_mem_cons.mp hns
      rw [List.flatMap_cons, fold_append, ← hn, ← ih hns]
      rfl

theorem Node.walk_eq_fold (hv : visit.IsFinal) (n : Node) (s : σ) :
    n.walk visit s = visit.fold n.nodes s := by
  induction n using Node.children_induction generalizing s with
  | step n ih =>
      rw [Node.walk_eq, Node.nodes_eq]
      split
      · cases hanswer : visit n s with
        | mk answer s' =>
            cases answer with
            | false =>
                rw [hv.fold_cons hanswer]
                rfl
            | true =>
                rw [Visitor.fold_cons hanswer, ← Visitor.walkAll_eq_fold ih]
                rfl
      · rfl

/-- A walk over a program is a fold over its nodes. -/
theorem Program.walk_eq_fold (hv : visit.IsFinal) (p : Program) (s : σ) :
    p.walk visit s = visit.fold p.nodes s :=
  Node.walk_eq_fold hv (.program p) s

end

end Cool
