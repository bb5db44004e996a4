import Cool.Proofs.Document.Readable

/-! The expressions of a tree, each with whether it lies in a branch that repeats the guard of a
branch before it. -/

namespace Cool

mutual

/-- An expression and all expressions in it, each with whether it lies in the body of a branch whose
guard an earlier branch of the same case has. `repeated` says so of the whole. -/
def Expr.occurrences (repeated : Bool) : Expr → List (Expr × Bool)
  | .missing => []
  | .noExpr m => [(.noExpr m, repeated)]
  | .int m token => [(.int m token, repeated)]
  | .string m value => [(.string m value, repeated)]
  | .bool m value => [(.bool m value, repeated)]
  | .new m type => [(.new m type, repeated)]
  | .object m name => [(.object m name, repeated)]
  | .block m body => (.block m body, repeated) :: Expr.occurrencesAll repeated body
  | .assign m name value => (.assign m name value, repeated) :: value.occurrences repeated
  | .dispatch m receiver method args =>
    (.dispatch m receiver method args, repeated) ::
      (receiver.occurrences repeated ++ Expr.occurrencesAll repeated args)
  | .staticDispatch m receiver target method args =>
    (.staticDispatch m receiver target method args, repeated) ::
      (receiver.occurrences repeated ++ Expr.occurrencesAll repeated args)
  | .cond m pred onTrue onFalse =>
    (.cond m pred onTrue onFalse, repeated) ::
      (pred.occurrences repeated ++ onTrue.occurrences repeated ++ onFalse.occurrences repeated)
  | .loop m pred body =>
    (.loop m pred body, repeated) :: (pred.occurrences repeated ++ body.occurrences repeated)
  | .caseOf m scrutinee branches =>
    (.caseOf m scrutinee branches, repeated) ::
      (scrutinee.occurrences repeated ++ Branch.occurrencesAll repeated [] branches)
  | .letIn m name type init body =>
    (.letIn m name type init body, repeated) ::
      (init.occurrences repeated ++ body.occurrences repeated)
  | .binary m op left right =>
    (.binary m op left right, repeated) ::
      (left.occurrences repeated ++ right.occurrences repeated)
  | .unary m op operand => (.unary m op operand, repeated) :: operand.occurrences repeated
termination_by structural e => e

def Expr.occurrencesAll (repeated : Bool) : List Expr → List (Expr × Bool)
  | [] => []
  | e :: rest => e.occurrences repeated ++ Expr.occurrencesAll repeated rest
termination_by structural es => es

/-- The expressions in branches that come after branches with the given guards. -/
def Branch.occurrencesAll (repeated : Bool) (guards : List Name) : List Branch → List (Expr × Bool)
  | [] => []
  | .mk _ _ type body :: rest =>
    body.occurrences (repeated || decide (type ∈ guards)) ++
      Branch.occurrencesAll repeated (type :: guards) rest
termination_by structural bs => bs

end

def Feature.occurrences : Feature → List (Expr × Bool)
  | .method m => m.body.occurrences false
  | .attr a => a.init.occurrences false

def ClassDecl.occurrences (c : ClassDecl) : List (Expr × Bool) :=
  c.features.flatMap Feature.occurrences

/-- The expressions of a program. -/
def Program.occurrences (p : Program) : List (Expr × Bool) :=
  p.classes.flatMap ClassDecl.occurrences

/-- The expression of a node that is one. -/
def Node.expr? : Node → Option Expr
  | .expr e => some e
  | _ => none

/-! ## Every expression occurs -/

mutual

theorem Expr.occurrences_nodes (repeated : Bool) : ∀ e : Expr,
    (e.occurrences repeated).map (·.1) = e.nodes.filterMap Node.expr?
  | .missing => by
      rw [Expr.occurrences, Expr.nodes]
      rfl
  | .noExpr _ | .int _ _ | .string _ _ | .bool _ _ | .new _ _ | .object _ _ => by
      rw [Expr.occurrences, Expr.nodes]
      rfl
  | .block m body => by
      rw [Expr.occurrences, Expr.nodes]
      simp [Node.expr?, Expr.occurrencesAll_nodes repeated body]
  | .assign m name value => by
      rw [Expr.occurrences, Expr.nodes]
      simp [Node.expr?, Expr.occurrences_nodes repeated value]
  | .dispatch m receiver method args => by
      rw [Expr.occurrences, Expr.nodes]
      simp [Node.expr?, Expr.occurrences_nodes repeated receiver,
        Expr.occurrencesAll_nodes repeated args]
  | .staticDispatch m receiver target method args => by
      rw [Expr.occurrences, Expr.nodes]
      simp [Node.expr?, Expr.occurrences_nodes repeated receiver,
        Expr.occurrencesAll_nodes repeated args]
  | .cond m pred onTrue onFalse => by
      rw [Expr.occurrences, Expr.nodes]
      simp [Node.expr?, Expr.occurrences_nodes repeated pred,
        Expr.occurrences_nodes repeated onTrue, Expr.occurrences_nodes repeated onFalse]
  | .loop m pred body => by
      rw [Expr.occurrences, Expr.nodes]
      simp [Node.expr?, Expr.occurrences_nodes repeated pred, Expr.occurrences_nodes repeated body]
  | .caseOf m scrutinee branches => by
      rw [Expr.occurrences, Expr.nodes]
      simp [Node.expr?, Expr.occurrences_nodes repeated scrutinee,
        Branch.occurrencesAll_nodes repeated [] branches]
  | .letIn m name type init body => by
      rw [Expr.occurrences, Expr.nodes]
      simp [Node.expr?, Expr.occurrences_nodes repeated init, Expr.occurrences_nodes repeated body]
  | .binary m op left right => by
      rw [Expr.occurrences, Expr.nodes]
      simp [Node.expr?, Expr.occurrences_nodes repeated left, Expr.occurrences_nodes repeated right]
  | .unary m op operand => by
      rw [Expr.occurrences, Expr.nodes]
      simp [Node.expr?, Expr.occurrences_nodes repeated operand]
termination_by structural e => e

theorem Expr.occurrencesAll_nodes (repeated : Bool) : ∀ es : List Expr,
    (Expr.occurrencesAll repeated es).map (·.1) = (Expr.nodesAll es).filterMap Node.expr?
  | [] => by
      rw [Expr.occurrencesAll, Expr.nodesAll]
      rfl
  | e :: es => by
      rw [Expr.occurrencesAll, Expr.nodesAll]
      simp [Expr.occurrences_nodes repeated e, Expr.occurrencesAll_nodes repeated es]
termination_by structural es => es

theorem Branch.occurrencesAll_nodes (repeated : Bool) (guards : List Name) : ∀ bs : List Branch,
    (Branch.occurrencesAll repeated guards bs).map (·.1) =
      (Branch.nodesAll bs).filterMap Node.expr?
  | [] => by
      rw [Branch.occurrencesAll, Branch.nodesAll]
      rfl
  | .mk span name type body :: bs => by
      rw [Branch.occurrencesAll, Branch.nodesAll, List.filterMap_cons_none (by rfl)]
      simp [Expr.occurrences_nodes _ body,
        Branch.occurrencesAll_nodes repeated (type :: guards) bs]
termination_by structural bs => bs

end

theorem Feature.occurrences_nodes (f : Feature) :
    f.occurrences.map (·.1) = f.nodes.filterMap Node.expr? := by
  cases f with
  | method m =>
      have hformals : (m.formals.map Node.formal).filterMap Node.expr? = [] := by
        simp [Node.expr?]
      rw [Feature.occurrences, Feature.nodes, List.filterMap_cons_none (by rfl),
        List.filterMap_append, hformals, List.nil_append, Expr.occurrences_nodes]
  | attr a =>
      rw [Feature.occurrences, Feature.nodes, List.filterMap_cons_none (by rfl),
        Expr.occurrences_nodes]

theorem ClassDecl.occurrences_nodes (c : ClassDecl) :
    c.occurrences.map (·.1) = c.nodes.filterMap Node.expr? := by
  rw [ClassDecl.occurrences, ClassDecl.nodes, List.filterMap_cons_none (by rfl), List.map_flatMap,
    List.filterMap_flatMap]
  simp only [Feature.occurrences_nodes]

/-- The expressions of a program are the nodes that are expressions. -/
theorem Program.occurrences_nodes (p : Program) :
    p.occurrences.map (·.1) = p.nodes.filterMap Node.expr? := by
  rw [Program.occurrences, Program.nodes, List.filterMap_cons_none (by rfl), List.map_flatMap,
    List.filterMap_flatMap]
  simp only [ClassDecl.occurrences_nodes]

/-! ## Expressions without types -/

theorem Name.spelled_ne (n : Name) : n.spelled ≠ .anonymous := by
  intro h
  cases h

mutual

theorem Expr.bare_bare : ∀ e : Expr, e.bare.bare = e.bare
  | .missing | .noExpr _ | .int _ _ | .string _ _ | .bool _ _ | .new _ _ | .object _ _ => rfl
  | .block m body => by
      rw [Expr.bare, Expr.bare, Expr.bareAll_bareAll body]
      rfl
  | .assign m name value => by
      rw [Expr.bare, Expr.bare, value.bare_bare]
      rfl
  | .dispatch m receiver method args => by
      rw [Expr.bare, Expr.bare, receiver.bare_bare, Expr.bareAll_bareAll args]
      rfl
  | .staticDispatch m receiver target method args => by
      rw [Expr.bare, Expr.bare, receiver.bare_bare, Expr.bareAll_bareAll args]
      rfl
  | .cond m pred onTrue onFalse => by
      rw [Expr.bare, Expr.bare, pred.bare_bare, onTrue.bare_bare, onFalse.bare_bare]
      rfl
  | .loop m pred body => by
      rw [Expr.bare, Expr.bare, pred.bare_bare, body.bare_bare]
      rfl
  | .caseOf m scrutinee branches => by
      rw [Expr.bare, Expr.bare, scrutinee.bare_bare, Branch.bareAll_bareAll branches]
      rfl
  | .letIn m name type init body => by
      rw [Expr.bare, Expr.bare, init.bare_bare, body.bare_bare]
      rfl
  | .binary m op left right => by
      rw [Expr.bare, Expr.bare, left.bare_bare, right.bare_bare]
      rfl
  | .unary m op operand => by
      rw [Expr.bare, Expr.bare, operand.bare_bare]
      rfl
termination_by structural e => e

theorem Expr.bareAll_bareAll : ∀ es : List Expr, Expr.bareAll (Expr.bareAll es) = Expr.bareAll es
  | [] => rfl
  | e :: es => by rw [Expr.bareAll, Expr.bareAll, e.bare_bare, Expr.bareAll_bareAll es]
termination_by structural es => es

theorem Branch.bareAll_bareAll : ∀ bs : List Branch,
    Branch.bareAll (Branch.bareAll bs) = Branch.bareAll bs
  | [] => rfl
  | .mk span name type body :: bs => by
      rw [Branch.bareAll, Branch.bareAll, body.bare_bare, Branch.bareAll_bareAll bs]
      rfl
termination_by structural bs => bs

end

mutual

theorem Expr.bare_occurrences : ∀ e : Expr,
    ∀ q ∈ e.bare.occurrences true, q.2 = true ∧ q.1.type = .anonymous
  | .missing => by
      rw [Expr.bare, Expr.occurrences]
      simp
  | .noExpr _ | .int _ _ | .string _ _ | .bool _ _ | .new _ _ | .object _ _ => by
      rw [Expr.bare, Expr.occurrences]
      exact List.forall_mem_singleton.mpr ⟨rfl, rfl⟩
  | .block m body => by
      rw [Expr.bare, Expr.occurrences]
      exact List.forall_mem_cons.mpr ⟨⟨rfl, rfl⟩, Expr.bareAll_occurrences body⟩
  | .assign m name value => by
      rw [Expr.bare, Expr.occurrences]
      exact List.forall_mem_cons.mpr ⟨⟨rfl, rfl⟩, value.bare_occurrences⟩
  | .dispatch m receiver method args => by
      rw [Expr.bare, Expr.occurrences, List.forall_mem_cons, List.forall_mem_append]
      exact ⟨⟨rfl, rfl⟩, receiver.bare_occurrences, Expr.bareAll_occurrences args⟩
  | .staticDispatch m receiver target method args => by
      rw [Expr.bare, Expr.occurrences, List.forall_mem_cons, List.forall_mem_append]
      exact ⟨⟨rfl, rfl⟩, receiver.bare_occurrences, Expr.bareAll_occurrences args⟩
  | .cond m pred onTrue onFalse => by
      rw [Expr.bare, Expr.occurrences, List.forall_mem_cons, List.forall_mem_append,
        List.forall_mem_append]
      exact ⟨⟨rfl, rfl⟩, ⟨pred.bare_occurrences, onTrue.bare_occurrences⟩,
        onFalse.bare_occurrences⟩
  | .loop m pred body => by
      rw [Expr.bare, Expr.occurrences, List.forall_mem_cons, List.forall_mem_append]
      exact ⟨⟨rfl, rfl⟩, pred.bare_occurrences, body.bare_occurrences⟩
  | .caseOf m scrutinee branches => by
      rw [Expr.bare, Expr.occurrences, List.forall_mem_cons, List.forall_mem_append]
      exact ⟨⟨rfl, rfl⟩, scrutinee.bare_occurrences, Branch.bareAll_occurrences [] branches⟩
  | .letIn m name type init body => by
      rw [Expr.bare, Expr.occurrences, List.forall_mem_cons, List.forall_mem_append]
      exact ⟨⟨rfl, rfl⟩, init.bare_occurrences, body.bare_occurrences⟩
  | .binary m op left right => by
      rw [Expr.bare, Expr.occurrences, List.forall_mem_cons, List.forall_mem_append]
      exact ⟨⟨rfl, rfl⟩, left.bare_occurrences, right.bare_occurrences⟩
  | .unary m op operand => by
      rw [Expr.bare, Expr.occurrences]
      exact List.forall_mem_cons.mpr ⟨⟨rfl, rfl⟩, operand.bare_occurrences⟩
termination_by structural e => e

theorem Expr.bareAll_occurrences : ∀ es : List Expr,
    ∀ q ∈ Expr.occurrencesAll true (Expr.bareAll es), q.2 = true ∧ q.1.type = .anonymous
  | [] => by
      rw [Expr.bareAll, Expr.occurrencesAll]
      simp
  | e :: es => by
      rw [Expr.bareAll, Expr.occurrencesAll, List.forall_mem_append]
      exact ⟨e.bare_occurrences, Expr.bareAll_occurrences es⟩
termination_by structural es => es

theorem Branch.bareAll_occurrences (guards : List Name) : ∀ bs : List Branch,
    ∀ q ∈ Branch.occurrencesAll true guards (Branch.bareAll bs),
      q.2 = true ∧ q.1.type = .anonymous
  | [] => by
      rw [Branch.bareAll, Branch.occurrencesAll]
      simp
  | .mk span name type body :: bs => by
      rw [Branch.bareAll, Branch.occurrencesAll, List.forall_mem_append, Bool.true_or]
      exact ⟨body.bare_occurrences, Branch.bareAll_occurrences _ bs⟩
termination_by structural bs => bs

end

end Cool
