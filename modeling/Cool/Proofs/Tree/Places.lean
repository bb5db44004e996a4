import Cool.Proofs.Tree.Complete
import Cool.Proofs.Tree.Nodes

/-! Places of expressions in a program. A frame is an expression with one direct part left open, and
a place is the way from the program down to a part, so that another expression can be put there. -/

namespace Cool

/-- An expression with one of its direct parts left open. -/
inductive Frame where
  | block (mark : Mark) (before after : List Expr)
  | assign (mark : Mark) (name : Name)
  | receiver (mark : Mark) (method : Name) (args : List Expr)
  | argument (mark : Mark) (receiver : Expr) (method : Name) (before after : List Expr)
  | staticReceiver (mark : Mark) (target method : Name) (args : List Expr)
  | staticArgument (mark : Mark) (receiver : Expr) (target method : Name)
      (before after : List Expr)
  | condPred (mark : Mark) (onTrue onFalse : Expr)
  | onTrue (mark : Mark) (pred onFalse : Expr)
  | onFalse (mark : Mark) (pred onTrue : Expr)
  | loopPred (mark : Mark) (body : Expr)
  | loopBody (mark : Mark) (pred : Expr)
  | scrutinee (mark : Mark) (branches : List Branch)
  | branch (mark : Mark) (scrutinee : Expr) (before : List Branch) (span : Span) (name type : Name)
      (after : List Branch)
  | letInit (mark : Mark) (name type : Name) (body : Expr)
  | letBody (mark : Mark) (name type : Name) (init : Expr)
  | left (mark : Mark) (op : BinaryOp) (right : Expr)
  | right (mark : Mark) (op : BinaryOp) (left : Expr)
  | operand (mark : Mark) (op : UnaryOp)

namespace Frame

/-- The expression with the open part filled in. -/
def fill : Frame → Expr → Expr
  | .block m before after, e => .block m (before ++ e :: after)
  | .assign m x, e => .assign m x e
  | .receiver m f args, e => .dispatch m e f args
  | .argument m e₀ f before after, e => .dispatch m e₀ f (before ++ e :: after)
  | .staticReceiver m c f args, e => .staticDispatch m e c f args
  | .staticArgument m e₀ c f before after, e => .staticDispatch m e₀ c f (before ++ e :: after)
  | .condPred m e₁ e₂, e => .cond m e e₁ e₂
  | .onTrue m e₀ e₂, e => .cond m e₀ e e₂
  | .onFalse m e₀ e₁, e => .cond m e₀ e₁ e
  | .loopPred m e₁, e => .loop m e e₁
  | .loopBody m e₀, e => .loop m e₀ e
  | .scrutinee m bs, e => .caseOf m e bs
  | .branch m e₀ before span x t after, e => .caseOf m e₀ (before ++ .mk span x t e :: after)
  | .letInit m x t e₁, e => .letIn m x t e e₁
  | .letBody m x t e₀, e => .letIn m x t e₀ e
  | .left m op e₂, e => .binary m op e e₂
  | .right m op e₁, e => .binary m op e₁ e
  | .operand m op, e => .unary m op e

/-- Where a frame that is an equality test stands. -/
def test? : Frame → Option Span
  | .left m op _ | .right m op _ => if op = .eq then some m.span else none
  | _ => none

/-- The variable that a frame binds in its open part. -/
def bound? : Frame → Option Name
  | .branch _ _ _ _ x _ _ | .letBody _ x _ _ => some x
  | _ => none

theorem fill_isAbsent (f : Frame) (e : Expr) : (f.fill e).isAbsent = false := by
  cases f <;> rfl

end Frame

/-- An expression inside frames, the outermost frame first. -/
def Expr.within : List Frame → Expr → Expr
  | [], e => e
  | f :: path, e => f.fill (Expr.within path e)

/-- Where the innermost equality test among frames stands, the outermost frame first. -/
def innermostTest? : List Frame → Option Span
  | [] => none
  | f :: path => (innermostTest? path).or f.test?

/-- The variable or attribute that a node binds. -/
def Node.bound? : Node → Option Name
  | .attr a => some a.name
  | .formal f => some f.name
  | .branch b => some b.name
  | .expr (.letIn _ name _ _ _) => some name
  | _ => none

theorem Expr.within_isAbsent {e : Expr} (he : e.isAbsent = false) (path : List Frame) :
    (Expr.within path e).isAbsent = false := by
  cases path with
  | nil => exact he
  | cons f path => exact f.fill_isAbsent _

/-! ## Parts of lists -/

theorem Expr.nodesAll_append (es es' : List Expr) :
    Expr.nodesAll (es ++ es') = Expr.nodesAll es ++ Expr.nodesAll es' := by
  induction es with
  | nil => rfl
  | cons e es ih => simp only [List.cons_append, Expr.nodesAll, ih, List.append_assoc]

theorem Branch.nodesAll_append (bs bs' : List Branch) :
    Branch.nodesAll (bs ++ bs') = Branch.nodesAll bs ++ Branch.nodesAll bs' := by
  induction bs with
  | nil => rfl
  | cons b bs ih =>
      obtain ⟨span, name, type, body⟩ := b
      simp only [List.cons_append, Branch.nodesAll, ih, List.append_assoc]

/-! ## Nodes around a place -/

namespace Frame

theorem mem_nodes_fill (f : Frame) {e : Expr} {n : Node} (hn : n ∈ e.nodes) :
    n ∈ (f.fill e).nodes := by
  cases f <;>
    simp [fill, Expr.nodes, Expr.nodesAll, Branch.nodesAll, Expr.nodesAll_append,
      Branch.nodesAll_append, hn]

theorem exists_node_of_bound? {f : Frame} {x : Name} (hx : f.bound? = some x) (e : Expr) :
    ∃ n ∈ (f.fill e).nodes, n.bound? = some x := by
  cases f with
  | branch m scrutinee before span name type after =>
      refine ⟨.branch (.mk span name type e), ?_, hx⟩
      simp [fill, Expr.nodes, Branch.nodesAll, Branch.nodesAll_append]
  | letBody m name type init =>
      refine ⟨.expr (.letIn m name type init e), ?_, hx⟩
      rw [fill, Expr.nodes]
      exact List.mem_cons_self
  | _ => cases hx

end Frame

theorem Expr.mem_nodes_within (path : List Frame) {e : Expr} {n : Node} (hn : n ∈ e.nodes) :
    n ∈ (Expr.within path e).nodes := by
  induction path with
  | nil => exact hn
  | cons f path ih => exact f.mem_nodes_fill ih

/-- A variable that no node of an expression binds is bound by none of the frames around a part. -/
theorem Expr.bound?_ne_of_nodes {x : Name} {path : List Frame} {e : Expr}
    (hx : ∀ n ∈ (Expr.within path e).nodes, n.bound? ≠ some x) :
    ∀ f ∈ path, f.bound? ≠ some x := by
  induction path with
  | nil => simp
  | cons f path ih =>
      refine List.forall_mem_cons.mpr ⟨fun hf => ?_, ih fun n hn => hx n (f.mem_nodes_fill hn)⟩
      obtain ⟨n, hn, hbound⟩ := Frame.exists_node_of_bound? hf (Expr.within path e)
      exact hx n hn hbound

/-! ## Every part has a place -/

mutual

/-- Every expression in another one is reached through frames. -/
theorem Expr.exists_within {q : Expr} : ∀ {e : Expr}, .expr q ∈ e.nodes →
    ∃ path, Expr.within path q = e
  | .missing, hq => by simp [Expr.nodes] at hq
  | .noExpr _, hq | .int _ _, hq | .string _ _, hq | .bool _ _, hq | .new _ _, hq
  | .object _ _, hq => by
      simp only [Expr.nodes, List.mem_singleton, Node.expr.injEq] at hq
      exact ⟨[], hq⟩
  | .block m body, hq => by
      simp only [Expr.nodes, List.mem_cons, Node.expr.injEq] at hq
      rcases hq with rfl | hq
      · exact ⟨[], rfl⟩
      · obtain ⟨before, path, after, rfl⟩ := Expr.exists_within_all hq
        exact ⟨.block m before after :: path, rfl⟩
  | .assign m name value, hq => by
      simp only [Expr.nodes, List.mem_cons, Node.expr.injEq] at hq
      rcases hq with rfl | hq
      · exact ⟨[], rfl⟩
      · obtain ⟨path, rfl⟩ := Expr.exists_within hq
        exact ⟨.assign m name :: path, rfl⟩
  | .dispatch m receiver method args, hq => by
      simp only [Expr.nodes, List.mem_cons, List.mem_append, Node.expr.injEq] at hq
      rcases hq with rfl | hq | hq
      · exact ⟨[], rfl⟩
      · obtain ⟨path, rfl⟩ := Expr.exists_within hq
        exact ⟨.receiver m method args :: path, rfl⟩
      · obtain ⟨before, path, after, rfl⟩ := Expr.exists_within_all hq
        exact ⟨.argument m receiver method before after :: path, rfl⟩
  | .staticDispatch m receiver target method args, hq => by
      simp only [Expr.nodes, List.mem_cons, List.mem_append, Node.expr.injEq] at hq
      rcases hq with rfl | hq | hq
      · exact ⟨[], rfl⟩
      · obtain ⟨path, rfl⟩ := Expr.exists_within hq
        exact ⟨.staticReceiver m target method args :: path, rfl⟩
      · obtain ⟨before, path, after, rfl⟩ := Expr.exists_within_all hq
        exact ⟨.staticArgument m receiver target method before after :: path, rfl⟩
  | .cond m pred onTrue onFalse, hq => by
      simp only [Expr.nodes, List.mem_cons, List.mem_append, Node.expr.injEq] at hq
      rcases hq with rfl | (hq | hq) | hq
      · exact ⟨[], rfl⟩
      · obtain ⟨path, rfl⟩ := Expr.exists_within hq
        exact ⟨.condPred m onTrue onFalse :: path, rfl⟩
      · obtain ⟨path, rfl⟩ := Expr.exists_within hq
        exact ⟨.onTrue m pred onFalse :: path, rfl⟩
      · obtain ⟨path, rfl⟩ := Expr.exists_within hq
        exact ⟨.onFalse m pred onTrue :: path, rfl⟩
  | .loop m pred body, hq => by
      simp only [Expr.nodes, List.mem_cons, List.mem_append, Node.expr.injEq] at hq
      rcases hq with rfl | hq | hq
      · exact ⟨[], rfl⟩
      · obtain ⟨path, rfl⟩ := Expr.exists_within hq
        exact ⟨.loopPred m body :: path, rfl⟩
      · obtain ⟨path, rfl⟩ := Expr.exists_within hq
        exact ⟨.loopBody m pred :: path, rfl⟩
  | .caseOf m scrutinee branches, hq => by
      simp only [Expr.nodes, List.mem_cons, List.mem_append, Node.expr.injEq] at hq
      rcases hq with rfl | hq | hq
      · exact ⟨[], rfl⟩
      · obtain ⟨path, rfl⟩ := Expr.exists_within hq
        exact ⟨.scrutinee m branches :: path, rfl⟩
      · obtain ⟨before, span, name, type, path, after, rfl⟩ := Branch.exists_within_all hq
        exact ⟨.branch m scrutinee before span name type after :: path, rfl⟩
  | .letIn m name type init body, hq => by
      simp only [Expr.nodes, List.mem_cons, List.mem_append, Node.expr.injEq] at hq
      rcases hq with rfl | hq | hq
      · exact ⟨[], rfl⟩
      · obtain ⟨path, rfl⟩ := Expr.exists_within hq
        exact ⟨.letInit m name type body :: path, rfl⟩
      · obtain ⟨path, rfl⟩ := Expr.exists_within hq
        exact ⟨.letBody m name type init :: path, rfl⟩
  | .binary m op left right, hq => by
      simp only [Expr.nodes, List.mem_cons, List.mem_append, Node.expr.injEq] at hq
      rcases hq with rfl | hq | hq
      · exact ⟨[], rfl⟩
      · obtain ⟨path, rfl⟩ := Expr.exists_within hq
        exact ⟨.left m op right :: path, rfl⟩
      · obtain ⟨path, rfl⟩ := Expr.exists_within hq
        exact ⟨.right m op left :: path, rfl⟩
  | .unary m op operand, hq => by
      simp only [Expr.nodes, List.mem_cons, Node.expr.injEq] at hq
      rcases hq with rfl | hq
      · exact ⟨[], rfl⟩
      · obtain ⟨path, rfl⟩ := Expr.exists_within hq
        exact ⟨.operand m op :: path, rfl⟩
termination_by structural e => e

theorem Expr.exists_within_all {q : Expr} : ∀ {es : List Expr}, .expr q ∈ Expr.nodesAll es →
    ∃ before path after, before ++ Expr.within path q :: after = es
  | [], hq => by simp [Expr.nodesAll] at hq
  | e :: es, hq => by
      rw [Expr.nodesAll, List.mem_append] at hq
      rcases hq with hq | hq
      · obtain ⟨path, rfl⟩ := Expr.exists_within hq
        exact ⟨[], path, es, rfl⟩
      · obtain ⟨before, path, after, rfl⟩ := Expr.exists_within_all hq
        exact ⟨e :: before, path, after, rfl⟩
termination_by structural es => es

theorem Branch.exists_within_all {q : Expr} : ∀ {bs : List Branch}, .expr q ∈ Branch.nodesAll bs →
    ∃ before span name type path after,
      before ++ .mk span name type (Expr.within path q) :: after = bs
  | [], hq => by simp [Branch.nodesAll] at hq
  | .mk span name type body :: bs, hq => by
      simp only [Branch.nodesAll, List.mem_cons, List.mem_append, reduceCtorEq, false_or] at hq
      rcases hq with hq | hq
      · obtain ⟨path, rfl⟩ := Expr.exists_within hq
        exact ⟨[], span, name, type, path, bs, rfl⟩
      · obtain ⟨before, span', name', type', path, after, rfl⟩ := Branch.exists_within_all hq
        exact ⟨.mk span name type body :: before, span', name', type', path, after, rfl⟩
termination_by structural bs => bs

end

/-! ## Programs -/

/-- A feature with another expression. -/
def Feature.withExpr : Feature → Expr → Feature
  | .method m, e => .method { m with body := e }
  | .attr a, e => .attr { a with init := e }

theorem Feature.isComplete_of_withExpr {f : Feature} {e : Expr} (he : e.isAbsent = false)
    (hf : (f.withExpr e).isComplete = true) : e.isComplete = true := by
  cases f with
  | method m => exact hf
  | attr a => rwa [Feature.withExpr, Feature.isComplete, he, Bool.false_or] at hf

theorem Feature.mem_nodes_withExpr (f : Feature) {e : Expr} {n : Node} (hn : n ∈ e.nodes) :
    n ∈ (f.withExpr e).nodes := by
  cases f with
  | method m => exact List.mem_cons_of_mem _ (List.mem_append_right _ hn)
  | attr a => exact List.mem_cons_of_mem _ hn

/-- A place in a program: the classes around the one it is in, the features around the one it is in,
and the frames in the expression of that feature. -/
structure Place where
  span : Span
  classesBefore : List ClassDecl
  classSpan : Span
  className : Name
  classParent : Name
  featuresBefore : List Feature
  feature : Feature
  path : List Frame
  featuresAfter : List Feature
  classesAfter : List ClassDecl

namespace Place

/-- The feature with an expression put at the place in it. -/
def featureWith (place : Place) (e : Expr) : Feature :=
  place.feature.withExpr (Expr.within place.path e)

/-- The class with an expression put at the place in it. -/
def classWith (place : Place) (e : Expr) : ClassDecl :=
  ⟨place.classSpan, place.className, place.classParent,
    place.featuresBefore ++ place.featureWith e :: place.featuresAfter⟩

/-- The program with an expression put at the place. -/
def fill (place : Place) (e : Expr) : Program :=
  ⟨place.span, place.classesBefore ++ place.classWith e :: place.classesAfter⟩

theorem classWith_mem (place : Place) (e : Expr) : place.classWith e ∈ (place.fill e).classes :=
  List.mem_append_right _ List.mem_cons_self

theorem featureWith_mem (place : Place) (e : Expr) :
    place.featureWith e ∈ (place.classWith e).features :=
  List.mem_append_right _ List.mem_cons_self

theorem mem_nodes_fill (place : Place) {e : Expr} {n : Node} (hn : n ∈ e.nodes) :
    n ∈ (place.fill e).nodes := by
  have hfeature : n ∈ (place.featureWith e).nodes :=
    place.feature.mem_nodes_withExpr (Expr.mem_nodes_within place.path hn)
  have hclass : n ∈ (place.classWith e).nodes :=
    List.mem_cons_of_mem _ (List.mem_flatMap.mpr ⟨_, place.featureWith_mem e, hfeature⟩)
  exact List.mem_cons_of_mem _ (List.mem_flatMap.mpr ⟨_, place.classWith_mem e, hclass⟩)

end Place

/-- Every expression in a program has a place. -/
theorem Program.exists_place {p : Program} {q : Expr} (hq : .expr q ∈ p.nodes) :
    ∃ place : Place, place.fill q = p := by
  obtain ⟨span, classes⟩ := p
  simp only [Program.nodes, List.mem_cons, reduceCtorEq, false_or, List.mem_flatMap] at hq
  obtain ⟨c, hc, hq⟩ := hq
  obtain ⟨classesBefore, classesAfter, rfl⟩ := List.append_of_mem hc
  obtain ⟨classSpan, className, classParent, features⟩ := c
  simp only [ClassDecl.nodes, List.mem_cons, reduceCtorEq, false_or, List.mem_flatMap] at hq
  obtain ⟨f, hf, hq⟩ := hq
  obtain ⟨featuresBefore, featuresAfter, rfl⟩ := List.append_of_mem hf
  obtain ⟨path, hpath⟩ : ∃ path, f.withExpr (Expr.within path q) = f := by
    cases f with
    | method m =>
        simp only [Feature.nodes, List.mem_cons, List.mem_append, List.mem_map, reduceCtorEq,
          false_or, and_false, exists_false] at hq
        obtain ⟨path, hpath⟩ := Expr.exists_within hq
        exact ⟨path, by rw [hpath]; rfl⟩
    | attr a =>
        simp only [Feature.nodes, List.mem_cons, reduceCtorEq, false_or] at hq
        obtain ⟨path, hpath⟩ := Expr.exists_within hq
        exact ⟨path, by rw [hpath]; rfl⟩
  refine ⟨⟨span, classesBefore, classSpan, className, classParent, featuresBefore, f, path,
    featuresAfter, classesAfter⟩, ?_⟩
  simp only [Place.fill, Place.classWith, Place.featureWith, hpath]

end Cool
