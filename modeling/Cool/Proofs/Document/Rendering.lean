import Cool.Document.Decode
import Cool.Proofs.Document.Readable
import Mathlib.Data.List.Forall2

/-! Programs as JSON values. A program has one plain rendering, in which every node has its members
in a fixed order. Other values describe it as well: keys that mean nothing to a node may be added,
and an initializer that is absent at the place of its owner may be left out. -/

namespace Cool.Document

/-! ## Nodes -/

/-- An object that has the given members, and has no others of their keys or of the optional ones.
It may have any other keys, and its members may be in any order. -/
def IsNode (optional : List String) (members : Members) (j : Json) : Prop :=
  ∃ text ms, j = .object text ms ∧
    ∀ m, m.1 ∈ members.map (·.1) ++ optional → (m ∈ ms ↔ m ∈ members)

/-- The members of a node at a place. -/
def placed (s : Span) (members : Members) : Members :=
  ("line", .number (toString s.line)) :: members

/-- The members of a node of some kind at a place. -/
def tagged (kind : String) (s : Span) (members : Members) : Members :=
  ("kind", .string kind) :: placed s members

def nameMember (key : String) (x : Name) : String × Json :=
  (key, .string x.text)

/-! ## Values that describe a tree -/

mutual

/-- The values that describe an expression. -/
inductive RendersExpr : Expr → Json → Prop where
  | noExpr {m j} (hj : IsNode [] (tagged "no_expr" m.span []) j) : RendersExpr (.noExpr m) j
  | block {m body text items j} (hbody : RendersAll body items)
      (hj : IsNode [] (tagged "block" m.span [("body", .array text items)]) j) :
      RendersExpr (.block m body) j
  | assign {m x value v j} (hvalue : RendersExpr value v)
      (hj : IsNode [] (tagged "assign" m.span [nameMember "name" x, ("value", v)]) j) :
      RendersExpr (.assign m x value) j
  | dispatch {m receiver r method args text items j} (hreceiver : RendersExpr receiver r)
      (hargs : RendersAll args items)
      (hj : IsNode [] (tagged "dispatch" m.span
        [("receiver", r), nameMember "method" method, ("args", .array text items)]) j) :
      RendersExpr (.dispatch m receiver method args) j
  | staticDispatch {m receiver r target method args text items j}
      (hreceiver : RendersExpr receiver r) (hargs : RendersAll args items)
      (hj : IsNode [] (tagged "static_dispatch" m.span
        [("receiver", r), nameMember "type" target, nameMember "method" method,
          ("args", .array text items)]) j) :
      RendersExpr (.staticDispatch m receiver target method args) j
  | cond {m pred onTrue onFalse p t f j} (hpred : RendersExpr pred p)
      (htrue : RendersExpr onTrue t) (hfalse : RendersExpr onFalse f)
      (hj : IsNode [] (tagged "cond" m.span [("pred", p), ("then", t), ("else", f)]) j) :
      RendersExpr (.cond m pred onTrue onFalse) j
  | loop {m pred body p b j} (hpred : RendersExpr pred p) (hbody : RendersExpr body b)
      (hj : IsNode [] (tagged "loop" m.span [("pred", p), ("body", b)]) j) :
      RendersExpr (.loop m pred body) j
  | caseOf {m scrutinee branches s text items j} (hscrutinee : RendersExpr scrutinee s)
      (hbranches : RendersBranches branches items)
      (hj : IsNode [] (tagged "typcase" m.span
        [("expr", s), ("branches", .array text items)]) j) :
      RendersExpr (.caseOf m scrutinee branches) j
  | letIn {m x type init body given b j} (hinit : RendersInitializer m.span init given)
      (hbody : RendersExpr body b)
      (hj : IsNode ["init"] (tagged "let" m.span
        (nameMember "name" x :: nameMember "type" type :: ("body", b) :: given)) j) :
      RendersExpr (.letIn m x type init body) j
  | binary {m op tag left right l r j} (htag : op.tag? = some tag) (hleft : RendersExpr left l)
      (hright : RendersExpr right r)
      (hj : IsNode [] (tagged tag m.span [("left", l), ("right", r)]) j) :
      RendersExpr (.binary m op left right) j
  | unary {m op tag operand o j} (htag : op.tag? = some tag) (hoperand : RendersExpr operand o)
      (hj : IsNode [] (tagged tag m.span [("expr", o)]) j) :
      RendersExpr (.unary m op operand) j
  | intText {m token j} (hj : IsNode [] (tagged "int" m.span [("value", .string token)]) j) :
      RendersExpr (.int m token) j
  | intNumber {m token j} (hj : IsNode [] (tagged "int" m.span [("value", .number token)]) j) :
      RendersExpr (.int m token) j
  | string {m value j} (hj : IsNode [] (tagged "string" m.span [("value", .string value)]) j) :
      RendersExpr (.string m value) j
  | bool {m value j} (hj : IsNode [] (tagged "bool" m.span [("value", .bool value)]) j) :
      RendersExpr (.bool m value) j
  | new {m type j} (hj : IsNode [] (tagged "new" m.span [nameMember "type" type]) j) :
      RendersExpr (.new m type) j
  | object {m x j} (hj : IsNode [] (tagged "object" m.span [nameMember "name" x]) j) :
      RendersExpr (.object m x) j

inductive RendersAll : List Expr → List Json → Prop where
  | nil : RendersAll [] []
  | cons {e es j js} (he : RendersExpr e j) (hes : RendersAll es js) : RendersAll (e :: es) (j :: js)

/-- The member that gives an initializer to its owner. -/
inductive RendersInitializer : Span → Expr → Members → Prop where
  | given {owner init j} (hinit : RendersExpr init j) :
      RendersInitializer owner init [("init", j)]
  | dropped {owner m} (hline : m.span.line = owner.line) :
      RendersInitializer owner (.noExpr m) []

inductive RendersBranches : List Branch → List Json → Prop where
  | nil : RendersBranches [] []
  | cons {s x type body bs b j js} (hbody : RendersExpr body b)
      (hj : IsNode [] (placed s [nameMember "name" x, nameMember "type" type, ("body", b)]) j)
      (hbs : RendersBranches bs js) : RendersBranches (.mk s x type body :: bs) (j :: js)

end

def RendersFormal (f : Formal) (j : Json) : Prop :=
  IsNode [] (placed f.span [nameMember "name" f.name, nameMember "type" f.type]) j

/-- The values that describe a feature. -/
inductive RendersFeature : Feature → Json → Prop where
  | method {m text items b j} (hformals : List.Forall₂ RendersFormal m.formals items)
      (hbody : RendersExpr m.body b)
      (hj : IsNode [] (tagged "method" m.span
        [nameMember "name" m.name, nameMember "return" m.result,
          ("formals", .array text items), ("body", b)]) j) :
      RendersFeature (.method m) j
  | attr {a given j} (hinit : RendersInitializer a.span a.init given)
      (hj : IsNode ["init"] (tagged "attr" a.span
        (nameMember "name" a.name :: nameMember "type" a.type :: given)) j) :
      RendersFeature (.attr a) j

/-- The member that names a parent, which is left out where there is none. -/
def parentMember : Name → Members
  | .anonymous => []
  | parent => [nameMember "parent" parent]

def RendersClass (c : ClassDecl) (j : Json) : Prop :=
  ∃ text items, List.Forall₂ RendersFeature c.features items ∧
    IsNode ["parent"] (placed c.span
      (nameMember "name" c.name :: ("features", .array text items) :: parentMember c.parent)) j

/-- Whether a key of the root is read, whatever the case of its letters. -/
def isRootKey (key : String) : Bool :=
  sameKey key "filename" || sameKey key "classes"

/-- The values that describe a program. -/
def RendersProgram (p : Program) (j : Json) : Prop :=
  ∃ text ms itemsText items, List.Forall₂ RendersClass p.classes items ∧ j = .object text ms ∧
    ∀ m, isRootKey m.1 = true →
      (m ∈ ms ↔ m ∈ [("filename", .string p.span.file), ("classes", .array itemsText items)])

/-! ## The plain rendering -/

/-- An object with the given members. Its text is not kept. -/
def node (members : Members) : Json :=
  .object "" members

theorem isNode_node (optional : List String) (members : Members) :
    IsNode optional members (node members) :=
  ⟨_, _, rfl, fun _ _ => .rfl⟩

/-- Adding keys that are not known to a node, at any place in it, does not change what it is. -/
theorem isNode_of_perm {optional : List String} {members ms : Members} (extra : Members)
    (hms : ms.Perm (members ++ extra))
    (hextra : ∀ m ∈ extra, m.1 ∉ members.map (·.1) ++ optional) (text : String) :
    IsNode optional members (.object text ms) := by
  refine ⟨text, ms, rfl, fun m hknown => ?_⟩
  rw [hms.mem_iff, List.mem_append]
  exact ⟨fun hm => hm.resolve_right fun hin => hextra m hin hknown, .inl⟩

mutual

/-- The plain rendering of an expression. -/
def renderExpr : Expr → Json
  | .missing => .null
  | .noExpr m => node (tagged "no_expr" m.span [])
  | .block m body => node (tagged "block" m.span [("body", .array "" (renderAll body))])
  | .assign m x value =>
    node (tagged "assign" m.span [nameMember "name" x, ("value", renderExpr value)])
  | .dispatch m receiver method args =>
    node (tagged "dispatch" m.span [("receiver", renderExpr receiver), nameMember "method" method,
      ("args", .array "" (renderAll args))])
  | .staticDispatch m receiver target method args =>
    node (tagged "static_dispatch" m.span [("receiver", renderExpr receiver),
      nameMember "type" target, nameMember "method" method, ("args", .array "" (renderAll args))])
  | .cond m pred onTrue onFalse =>
    node (tagged "cond" m.span
      [("pred", renderExpr pred), ("then", renderExpr onTrue), ("else", renderExpr onFalse)])
  | .loop m pred body =>
    node (tagged "loop" m.span [("pred", renderExpr pred), ("body", renderExpr body)])
  | .caseOf m scrutinee branches =>
    node (tagged "typcase" m.span
      [("expr", renderExpr scrutinee), ("branches", .array "" (renderBranches branches))])
  | .letIn m x type init body =>
    node (tagged "let" m.span [nameMember "name" x, nameMember "type" type,
      ("body", renderExpr body), ("init", renderExpr init)])
  | .binary m op left right =>
    node (tagged (op.tag?.getD "") m.span
      [("left", renderExpr left), ("right", renderExpr right)])
  | .unary m op operand => node (tagged (op.tag?.getD "") m.span [("expr", renderExpr operand)])
  | .int m token => node (tagged "int" m.span [("value", .string token)])
  | .string m value => node (tagged "string" m.span [("value", .string value)])
  | .bool m value => node (tagged "bool" m.span [("value", .bool value)])
  | .new m type => node (tagged "new" m.span [nameMember "type" type])
  | .object m x => node (tagged "object" m.span [nameMember "name" x])
termination_by structural e => e

def renderAll : List Expr → List Json
  | [] => []
  | e :: rest => renderExpr e :: renderAll rest
termination_by structural es => es

def renderBranches : List Branch → List Json
  | [] => []
  | .mk s x type body :: rest =>
    node (placed s [nameMember "name" x, nameMember "type" type, ("body", renderExpr body)]) ::
      renderBranches rest
termination_by structural bs => bs

end

def renderFormal (f : Formal) : Json :=
  node (placed f.span [nameMember "name" f.name, nameMember "type" f.type])

def renderFeature : Feature → Json
  | .method m =>
    node (tagged "method" m.span [nameMember "name" m.name, nameMember "return" m.result,
      ("formals", .array "" (m.formals.map renderFormal)), ("body", renderExpr m.body)])
  | .attr a =>
    node (tagged "attr" a.span
      [nameMember "name" a.name, nameMember "type" a.type, ("init", renderExpr a.init)])

def renderClass (c : ClassDecl) : Json :=
  node (placed c.span (nameMember "name" c.name ::
    ("features", .array "" (c.features.map renderFeature)) :: parentMember c.parent))

/-- The plain rendering of a program. -/
def render (p : Program) : Json :=
  node [("filename", .string p.span.file), ("classes", .array "" (p.classes.map renderClass))]

theorem tag?_getD {tag? : Option String} (htag : tag?.isSome = true) :
    tag? = some (tag?.getD "") := by
  obtain ⟨tag, rfl⟩ := Option.isSome_iff_exists.mp htag
  rfl

mutual

theorem rendersExpr_render : ∀ e : Expr, e.isWritten = true → RendersExpr e (renderExpr e)
  | .missing, he => by simp [Expr.isWritten] at he
  | .noExpr _, _ => .noExpr (isNode_node _ _)
  | .block _ body, he => .block (rendersAll_render body he) (isNode_node _ _)
  | .assign _ _ value, he => .assign (rendersExpr_render value he) (isNode_node _ _)
  | .dispatch _ receiver _ args, he => by
      rw [Expr.isWritten, Bool.and_eq_true] at he
      exact .dispatch (rendersExpr_render receiver he.1) (rendersAll_render args he.2)
        (isNode_node _ _)
  | .staticDispatch _ receiver _ _ args, he => by
      rw [Expr.isWritten, Bool.and_eq_true] at he
      exact .staticDispatch (rendersExpr_render receiver he.1) (rendersAll_render args he.2)
        (isNode_node _ _)
  | .cond _ pred onTrue onFalse, he => by
      simp only [Expr.isWritten, Bool.and_eq_true] at he
      exact .cond (rendersExpr_render pred he.1.1) (rendersExpr_render onTrue he.1.2)
        (rendersExpr_render onFalse he.2) (isNode_node _ _)
  | .loop _ pred body, he => by
      rw [Expr.isWritten, Bool.and_eq_true] at he
      exact .loop (rendersExpr_render pred he.1) (rendersExpr_render body he.2) (isNode_node _ _)
  | .caseOf _ scrutinee branches, he => by
      rw [Expr.isWritten, Bool.and_eq_true] at he
      exact .caseOf (rendersExpr_render scrutinee he.1) (rendersBranches_render branches he.2)
        (isNode_node _ _)
  | .letIn _ _ _ init body, he => by
      rw [Expr.isWritten, Bool.and_eq_true] at he
      exact .letIn (.given (rendersExpr_render init he.1)) (rendersExpr_render body he.2)
        (isNode_node _ _)
  | .binary _ op left right, he => by
      simp only [Expr.isWritten, Bool.and_eq_true] at he
      exact .binary (tag?_getD he.1.1) (rendersExpr_render left he.1.2)
        (rendersExpr_render right he.2) (isNode_node _ _)
  | .unary _ op operand, he => by
      rw [Expr.isWritten, Bool.and_eq_true] at he
      exact .unary (tag?_getD he.1) (rendersExpr_render operand he.2) (isNode_node _ _)
  | .int _ _, _ => .intText (isNode_node _ _)
  | .string _ _, _ => .string (isNode_node _ _)
  | .bool _ _, _ => .bool (isNode_node _ _)
  | .new _ _, _ => .new (isNode_node _ _)
  | .object _ _, _ => .object (isNode_node _ _)
termination_by structural e => e

theorem rendersAll_render : ∀ es : List Expr, Expr.allWritten es = true →
    RendersAll es (renderAll es)
  | [], _ => .nil
  | e :: es, he => by
      rw [Expr.allWritten, Bool.and_eq_true] at he
      exact .cons (rendersExpr_render e he.1) (rendersAll_render es he.2)
termination_by structural es => es

theorem rendersBranches_render : ∀ bs : List Branch, Branch.allWritten bs = true →
    RendersBranches bs (renderBranches bs)
  | [], _ => .nil
  | .mk _ _ _ body :: bs, he => by
      rw [Branch.allWritten, Bool.and_eq_true] at he
      exact .cons (rendersExpr_render body he.1) (isNode_node _ _) (rendersBranches_render bs he.2)
termination_by structural bs => bs

end

theorem rendersFeature_render {f : Feature} (hf : f.isWritten = true) :
    RendersFeature f (renderFeature f) := by
  cases f with
  | method m =>
      refine .method ?_ (rendersExpr_render m.body hf) (isNode_node _ _)
      exact List.forall₂_map_right_iff.mpr (List.forall₂_same.mpr fun _ _ => isNode_node _ _)
  | attr a => exact .attr (.given (rendersExpr_render a.init hf)) (isNode_node _ _)

/-- The plain rendering of a program describes it. -/
theorem rendersProgram_render {p : Program}
    (hp : ∀ c ∈ p.classes, ∀ f ∈ c.features, f.isWritten = true) :
    RendersProgram p (render p) := by
  refine ⟨_, _, _, _, ?_, rfl, fun _ _ => .rfl⟩
  refine List.forall₂_map_right_iff.mpr (List.forall₂_same.mpr fun c hc => ?_)
  refine ⟨_, _, List.forall₂_map_right_iff.mpr ?_, isNode_node _ _⟩
  exact List.forall₂_same.mpr fun f hf => rendersFeature_render (hp c hc f hf)

end Cool.Document
