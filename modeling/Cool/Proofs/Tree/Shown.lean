import Cool.Proofs.Tree.Nodes
import Cool.Tree.Dump

/-! What a dump shows of a tree. It shows an absent parent as the root class, a missing expression
as an absent one in line zero, and an expression without a type as one of no type. Of the file names
it shows those of classes only. -/

namespace Cool

/-- The type shown for an expression. -/
def Name.shownType : Name → Name
  | anonymous => noType
  | named t => named t

/-- The parent shown for a class. -/
def Name.shownParent : Name → Name
  | anonymous => object
  | named t => named t

def Span.shown (s : Span) : Span :=
  { line := s.line }

def Mark.shown (m : Mark) : Mark :=
  ⟨m.span.shown, m.type.shownType⟩

mutual

/-- An expression as a dump shows it. -/
def Expr.shown : Expr → Expr
  | .missing => .noExpr ⟨{}, .noType⟩
  | .noExpr m => .noExpr m.shown
  | .block m body => .block m.shown (Expr.shownAll body)
  | .assign m name value => .assign m.shown name value.shown
  | .dispatch m receiver method args =>
    .dispatch m.shown receiver.shown method (Expr.shownAll args)
  | .staticDispatch m receiver target method args =>
    .staticDispatch m.shown receiver.shown target method (Expr.shownAll args)
  | .cond m pred onTrue onFalse => .cond m.shown pred.shown onTrue.shown onFalse.shown
  | .loop m pred body => .loop m.shown pred.shown body.shown
  | .caseOf m scrutinee branches => .caseOf m.shown scrutinee.shown (Branch.shownAll branches)
  | .letIn m name type init body => .letIn m.shown name type init.shown body.shown
  | .binary m op left right => .binary m.shown op left.shown right.shown
  | .unary m op operand => .unary m.shown op operand.shown
  | .int m token => .int m.shown token
  | .string m value => .string m.shown value
  | .bool m value => .bool m.shown value
  | .new m type => .new m.shown type
  | .object m name => .object m.shown name
termination_by structural e => e

def Expr.shownAll : List Expr → List Expr
  | [] => []
  | e :: rest => e.shown :: Expr.shownAll rest
termination_by structural es => es

def Branch.shownAll : List Branch → List Branch
  | [] => []
  | .mk span name type body :: rest =>
    .mk span.shown name type body.shown :: Branch.shownAll rest
termination_by structural bs => bs

end

def Branch.shown (b : Branch) : Branch :=
  .mk b.span.shown b.name b.type b.body.shown

def Formal.shown (f : Formal) : Formal :=
  { f with span := f.span.shown }

def Feature.shown : Feature → Feature
  | method m => .method
      { m with
        span := m.span.shown
        formals := m.formals.map Formal.shown
        body := m.body.shown }
  | attr a => .attr { a with span := a.span.shown, init := a.init.shown }

/-- A class as a dump shows it, with the name of its file. -/
def ClassDecl.shown (c : ClassDecl) : ClassDecl :=
  { c with parent := c.parent.shownParent, features := c.features.map Feature.shown }

def Program.shown (p : Program) : Program :=
  ⟨p.span.shown, p.classes.map ClassDecl.shown⟩

theorem Expr.shownAll_eq_map (es : List Expr) : Expr.shownAll es = es.map Expr.shown := by
  induction es with
  | nil => rfl
  | cons e es ih => rw [Expr.shownAll, ih, List.map_cons]

theorem Branch.shownAll_eq_map (bs : List Branch) : Branch.shownAll bs = bs.map Branch.shown := by
  induction bs with
  | nil => rfl
  | cons b bs ih =>
      obtain ⟨span, name, type, body⟩ := b
      rw [Branch.shownAll, ih, List.map_cons]
      rfl

/-! ## A dump shows this and no more -/

namespace Dump

theorem typeLine_eq (n : Nat) (t : Name) : typeLine n t = indent n (": " ++ t.shownType.text) := by
  cases t with
  | anonymous => rfl
  | named t => rfl

theorem typeLine_shownType (n : Nat) (t : Name) : typeLine n t.shownType = typeLine n t := by
  cases t with
  | anonymous => rfl
  | named t => rfl

theorem framed_shown (n : Nat) (m : Mark) (tag : String) (parts : List String) :
    framed n m.shown tag parts = framed n m tag parts := by
  rw [framed, framed, Mark.shown, typeLine_shownType]
  rfl

mutual

theorem expr_shown (n : Nat) : ∀ e : Expr, expr n e.shown = expr n e
  | .missing => rfl
  | .noExpr m | .int m _ | .string m _ | .bool m _ | .new m _ | .object m _ => by
      rw [Expr.shown, expr, expr, framed_shown]
  | .block m body => by
      rw [Expr.shown, expr, expr, framed_shown, exprs_shown (n + 2) body]
  | .assign m name value => by
      rw [Expr.shown, expr, expr, framed_shown, expr_shown (n + 2) value]
  | .dispatch m receiver method args => by
      rw [Expr.shown, expr, expr, framed_shown, expr_shown (n + 2) receiver,
        exprs_shown (n + 2) args]
  | .staticDispatch m receiver target method args => by
      rw [Expr.shown, expr, expr, framed_shown, expr_shown (n + 2) receiver,
        exprs_shown (n + 2) args]
  | .cond m pred onTrue onFalse => by
      rw [Expr.shown, expr, expr, framed_shown, expr_shown (n + 2) pred,
        expr_shown (n + 2) onTrue, expr_shown (n + 2) onFalse]
  | .loop m pred body => by
      rw [Expr.shown, expr, expr, framed_shown, expr_shown (n + 2) pred, expr_shown (n + 2) body]
  | .caseOf m scrutinee arms => by
      rw [Expr.shown, expr, expr, framed_shown, expr_shown (n + 2) scrutinee,
        branches_shown (n + 2) arms]
  | .letIn m name type init body => by
      rw [Expr.shown, expr, expr, framed_shown, expr_shown (n + 2) init, expr_shown (n + 2) body]
  | .binary m op left right => by
      rw [Expr.shown, expr, expr, framed_shown, expr_shown (n + 2) left, expr_shown (n + 2) right]
  | .unary m op operand => by
      rw [Expr.shown, expr, expr, framed_shown, expr_shown (n + 2) operand]
termination_by structural e => e

theorem exprs_shown (n : Nat) : ∀ es : List Expr, exprs n (Expr.shownAll es) = exprs n es
  | [] => rfl
  | e :: es => by rw [Expr.shownAll, exprs, exprs, expr_shown n e, exprs_shown n es]
termination_by structural es => es

theorem branches_shown (n : Nat) : ∀ bs : List Branch,
    branches n (Branch.shownAll bs) = branches n bs
  | [] => rfl
  | .mk span name type body :: bs => by
      rw [Branch.shownAll, branches, branches, expr_shown (n + 2) body, branches_shown n bs]
      rfl
termination_by structural bs => bs

end

theorem feature_shown (n : Nat) (f : Feature) : feature n f.shown = feature n f := by
  cases f with
  | method m =>
      have hformals : (m.formals.map Formal.shown).flatMap (formal (n + 2)) =
          m.formals.flatMap (formal (n + 2)) := by
        rw [List.flatMap_map]
        rfl
      rw [Feature.shown, feature, feature]
      dsimp only
      rw [hformals, expr_shown]
      rfl
  | attr a =>
      rw [Feature.shown, feature, feature]
      dsimp only
      rw [expr_shown]
      rfl

theorem classDecl_shown (n : Nat) (c : ClassDecl) : classDecl n c.shown = classDecl n c := by
  have hparent : parentText c.parent.shownParent = parentText c.parent := by
    cases c.parent with
    | anonymous => rfl
    | named t => rfl
  have hfeatures : (c.features.map Feature.shown).flatMap (feature (n + 2)) =
      c.features.flatMap (feature (n + 2)) := by
    rw [List.flatMap_map]
    simp only [feature_shown]
  rw [ClassDecl.shown, classDecl, classDecl]
  dsimp only
  rw [hparent, hfeatures]

end Dump

theorem Program.dump_shown (p : Program) : p.shown.dump = p.dump := by
  have hclasses : (p.classes.map ClassDecl.shown).flatMap (Dump.classDecl 2) =
      p.classes.flatMap (Dump.classDecl 2) := by
    rw [List.flatMap_map]
    simp only [Dump.classDecl_shown]
  rw [dump, dump, dumpLines, dumpLines, Program.shown]
  dsimp only
  rw [hclasses]
  rfl

end Cool
