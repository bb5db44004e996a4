import Cool.Proofs.Tree.DumpLines

/-! A dump determines the tree it shows. Every node starts with the line of its position, so that
lists of nodes need no mark for their ends, and a tree is read from the front of its lines whatever
follows them. -/

namespace Cool

namespace Dump

/-! ## Reading from the front -/

/-- What the lines of a thing show, with whatever follows, is determined by the lines. -/
def Legible {α β : Type} (lines : α → List String) (shown : α → β) (plain : α → Prop) (a : α) :
    Prop :=
  ∀ ⦃a' rest rest'⦄, plain a' → lines a ++ rest = lines a' ++ rest' →
    shown a = shown a' ∧ rest = rest'

/-- Things that each start with a position are read one by one up to where they end. -/
theorem Legible.flatMap {α β : Type} {lines : α → List String} {shown : α → β} {plain : α → Prop}
    {n : Nat} (hlines : ∀ a, ∃ span tail, lines a = position n span :: tail) {as as' : List α}
    (has : ∀ a ∈ as, Legible lines shown plain a) (has' : ∀ a ∈ as', plain a)
    {rest rest' : List String} (hrest : Stops n rest) (hrest' : Stops n rest')
    (h : as.flatMap lines ++ rest = as'.flatMap lines ++ rest') :
    as.map shown = as'.map shown ∧ rest = rest' := by
  induction as generalizing as' with
  | nil =>
      cases as' with
      | nil => exact ⟨rfl, h⟩
      | cons a' as' =>
          obtain ⟨span, tail, ha'⟩ := hlines a'
          rw [List.flatMap_nil, List.nil_append, List.flatMap_cons, ha'] at h
          exact absurd h (hrest _ _)
  | cons a as ih =>
      obtain ⟨ha, has⟩ := List.forall_mem_cons.mp has
      cases as' with
      | nil =>
          obtain ⟨span, tail, ha'⟩ := hlines a
          rw [List.flatMap_nil, List.nil_append, List.flatMap_cons, ha'] at h
          exact absurd h.symm (hrest' _ _)
      | cons a' as' =>
          obtain ⟨hplain, has'⟩ := List.forall_mem_cons.mp has'
          rw [List.flatMap_cons, List.flatMap_cons, List.append_assoc, List.append_assoc] at h
          obtain ⟨hhead, h⟩ := ha hplain h
          obtain ⟨htail, hend⟩ := ih has has' h
          exact ⟨by rw [List.map_cons, List.map_cons, hhead, htail], hend⟩

/-! ## Expressions -/

theorem exists_framed (n : Nat) (e : Expr) :
    ∃ m parts, expr n e = framed n m e.kind.tag parts := by
  cases e <;> exact ⟨_, _, rfl⟩

theorem framed_inj {n : Nat} {m m' : Mark} {tag tag' : String}
    {parts parts' rest rest' : List String}
    (h : framed n m tag parts ++ rest = framed n m' tag' parts' ++ rest') :
    m.span.shown = m'.span.shown ∧ tag = tag' ∧
      parts ++ typeLine n m.type :: rest = parts' ++ typeLine n m'.type :: rest' := by
  simp only [framed, List.cons_append, List.append_assoc, List.nil_append, List.cons.injEq] at h
  exact ⟨position_inj h.1, indent_inj h.2.1, h.2.2⟩

/-- The line of the type completes what is shown of a mark. -/
theorem mark_inj {n : Nat} {m m' : Mark} {rest rest' : List String}
    (hspan : m.span.shown = m'.span.shown)
    (h : typeLine n m.type :: rest = typeLine n m'.type :: rest') :
    m.shown = m'.shown ∧ rest = rest' := by
  obtain ⟨htype, hrest⟩ := List.cons.inj h
  exact ⟨by rw [Mark.shown, Mark.shown, hspan, typeLine_inj htype], hrest⟩

/-- An expression with one text between its tag and its type. -/
theorem leaf_inj {n : Nat} {m m' : Mark} {tag tag' s s' : String} {rest rest' : List String}
    (h : framed n m tag [indent (n + 2) s] ++ rest =
      framed n m' tag' [indent (n + 2) s'] ++ rest') :
    m.shown = m'.shown ∧ s = s' ∧ rest = rest' := by
  obtain ⟨hspan, -, h⟩ := framed_inj h
  obtain ⟨hs, h⟩ := List.cons.inj h
  obtain ⟨hmark, hrest⟩ := mark_inj hspan h
  exact ⟨hmark, indent_inj hs, hrest⟩

theorem nameLeaf_inj {n : Nat} {m m' : Mark} {tag tag' : String} {x x' : Name}
    {rest rest' : List String} (hx : x.isWord = true) (hx' : x'.isWord = true)
    (h : framed n m tag [indent (n + 2) x.text] ++ rest =
      framed n m' tag' [indent (n + 2) x'.text] ++ rest') :
    m.shown = m'.shown ∧ x = x' ∧ rest = rest' := by
  obtain ⟨hmark, htext, hrest⟩ := leaf_inj h
  exact ⟨hmark, text_inj hx hx' htext, hrest⟩

/-- The nodes of an expression are plain. -/
def ExprPlain (e : Expr) : Prop :=
  ∀ node ∈ e.nodes, node.isPlain = true

theorem ExprPlain.own {e : Expr} (he : ExprPlain e) :
    (e.type.isAnnotation = true ∧ ∀ x ∈ e.words, x.isWord = true) ∧ e.isLexical = true := by
  have hmem : e = .missing ∨ .expr e ∈ e.nodes := by
    cases e <;> simp [Expr.nodes]
  rcases hmem with rfl | hmem
  · exact ⟨⟨rfl, nofun⟩, rfl⟩
  · have hplain := he _ hmem
    simp only [Node.isPlain, Bool.and_eq_true, List.all_eq_true] at hplain
    exact hplain

theorem ExprPlain.isWord {e : Expr} (he : ExprPlain e) : ∀ x ∈ e.words, x.isWord = true :=
  he.own.1.2

theorem ExprPlain.isKnown {e : Expr} (he : ExprPlain e) : e.kind.isKnown = true := by
  have hlexical := he.own.2
  cases e with
  | binary m op left right => exact hlexical
  | unary m op operand => exact hlexical
  | _ => rfl

theorem kind_eq {n : Nat} {e e' : Expr} (he : ExprPlain e) (he' : ExprPlain e')
    {rest rest' : List String} (h : expr n e ++ rest = expr n e' ++ rest') : e.kind = e'.kind := by
  obtain ⟨m, parts, hframed⟩ := exists_framed n e
  obtain ⟨m', parts', hframed'⟩ := exists_framed n e'
  rw [hframed, hframed'] at h
  exact Kind.tag_inj he.isKnown he'.isKnown (framed_inj h).2.1

theorem exprPlain_of_mem {es : List Expr} (hes : ∀ node ∈ Expr.nodesAll es, node.isPlain = true) :
    ∀ e ∈ es, ExprPlain e := by
  induction es with
  | nil => nofun
  | cons e es ih =>
      rw [Expr.nodesAll, List.forall_mem_append] at hes
      exact List.forall_mem_cons.mpr ⟨hes.1, ih hes.2⟩

/-- The lines of a branch. -/
def branch (n : Nat) (b : Branch) : List String :=
  position n b.span :: indent n "_branch" :: indent (n + 2) b.name.text ::
    indent (n + 2) b.type.text :: expr (n + 2) b.body

/-- The nodes of a branch are plain. -/
def BranchPlain (b : Branch) : Prop :=
  b.name.isWord = true ∧ b.type.isWord = true ∧ ExprPlain b.body

theorem branchPlain_of_mem {bs : List Branch}
    (hbs : ∀ node ∈ Branch.nodesAll bs, node.isPlain = true) : ∀ b ∈ bs, BranchPlain b := by
  induction bs with
  | nil => nofun
  | cons b bs ih =>
      obtain ⟨span, name, type, body⟩ := b
      rw [Branch.nodesAll, List.forall_mem_cons, List.forall_mem_append] at hbs
      obtain ⟨hb, hbody, hrest⟩ := hbs
      rw [Node.isPlain, Bool.and_eq_true] at hb
      exact List.forall_mem_cons.mpr ⟨⟨hb.1, hb.2, hbody⟩, ih hrest⟩

theorem exprs_eq_flatMap (n : Nat) (es : List Expr) : exprs n es = es.flatMap (expr n) := by
  induction es with
  | nil => rfl
  | cons e es ih => rw [exprs, ih, List.flatMap_cons]

theorem branches_eq_flatMap (n : Nat) (bs : List Branch) :
    branches n bs = bs.flatMap (branch n) := by
  induction bs with
  | nil => rfl
  | cons b bs ih =>
      obtain ⟨span, name, type, body⟩ := b
      rw [branches, ih, List.flatMap_cons]
      rfl

theorem expr_starts (n : Nat) (e : Expr) : ∃ span tail, expr n e = position n span :: tail := by
  obtain ⟨m, parts, hframed⟩ := exists_framed n e
  exact ⟨_, _, hframed⟩

theorem branch_starts (n : Nat) (b : Branch) :
    ∃ span tail, branch n b = position n span :: tail :=
  ⟨_, _, rfl⟩

/-- An expression can be read from its lines, whatever follows. -/
def ExprLegible (e : Expr) : Prop :=
  ∀ n, Legible (expr n) Expr.shown ExprPlain e

theorem exprs_legible {es es' : List Expr} (hes : ∀ e ∈ es, ExprLegible e)
    (hes' : ∀ node ∈ Expr.nodesAll es', node.isPlain = true) {n : Nat} {rest rest' : List String}
    (hrest : Stops n rest) (hrest' : Stops n rest')
    (h : exprs n es ++ rest = exprs n es' ++ rest') :
    Expr.shownAll es = Expr.shownAll es' ∧ rest = rest' := by
  rw [exprs_eq_flatMap, exprs_eq_flatMap] at h
  rw [Expr.shownAll_eq_map, Expr.shownAll_eq_map]
  exact Legible.flatMap (expr_starts n) (fun e he => hes e he n) (exprPlain_of_mem hes') hrest
    hrest' h

theorem branch_legible {b : Branch} (hname : b.name.isWord = true) (htype : b.type.isWord = true)
    (hbody : ExprLegible b.body) (n : Nat) : Legible (branch n) Branch.shown BranchPlain b := by
  intro b' rest rest' hb' h
  obtain ⟨hname', htype', hbody'⟩ := hb'
  simp only [branch, List.cons_append, List.cons.injEq] at h
  obtain ⟨hspan, -, hx, ht, h⟩ := h
  obtain ⟨hshown, hrest⟩ := hbody (n + 2) hbody' h
  refine ⟨?_, hrest⟩
  rw [Branch.shown, Branch.shown, position_inj hspan, word_inj hname hname' hx,
    word_inj htype htype' ht, hshown]

theorem branches_legible {bs bs' : List Branch}
    (hplain : ∀ node ∈ Branch.nodesAll bs, node.isPlain = true)
    (hbs : ∀ b ∈ bs, ExprLegible b.body)
    (hbs' : ∀ node ∈ Branch.nodesAll bs', node.isPlain = true) {n : Nat}
    {rest rest' : List String} (hrest : Stops n rest) (hrest' : Stops n rest')
    (h : branches n bs ++ rest = branches n bs' ++ rest') :
    Branch.shownAll bs = Branch.shownAll bs' ∧ rest = rest' := by
  rw [branches_eq_flatMap, branches_eq_flatMap] at h
  rw [Branch.shownAll_eq_map, Branch.shownAll_eq_map]
  refine Legible.flatMap (branch_starts n) (fun b hb => ?_) (branchPlain_of_mem hbs') hrest
    hrest' h
  obtain ⟨hname, htype, -⟩ := branchPlain_of_mem hplain b hb
  exact branch_legible hname htype (hbs b hb) n

/-- An expression that is left out is shown as an absent one without a type. -/
theorem absent_legible {e e' : Expr} (he : e.kind = .noExpr) (he' : e'.kind = .noExpr) {n : Nat}
    {rest rest' : List String} (h : expr n e ++ rest = expr n e' ++ rest') :
    e.shown = e'.shown ∧ rest = rest' := by
  have hframed : ∀ e : Expr, e.kind = .noExpr →
      ∃ m, expr n e = framed n m "_no_expr" [] ∧ e.shown = .noExpr m.shown := by
    intro e he
    cases e with
    | missing => exact ⟨⟨{}, .anonymous⟩, rfl, rfl⟩
    | noExpr m => exact ⟨m, rfl, rfl⟩
    | _ => cases he
  obtain ⟨m, hlines, hshown⟩ := hframed e he
  obtain ⟨m', hlines', hshown'⟩ := hframed e' he'
  rw [hlines, hlines'] at h
  obtain ⟨hspan, -, h⟩ := framed_inj h
  obtain ⟨hmark, hrest⟩ := mark_inj hspan h
  exact ⟨by rw [hshown, hshown', hmark], hrest⟩

/-! ## One construct at a time

An expression can be read where its parts can. -/

namespace ExprLegible

variable {m : Mark}

/-- Only expressions of the same kind have to be told apart. -/
theorem of_kind {e : Expr} (he : ExprPlain e)
    (h : ∀ {n : Nat} {e' : Expr} {rest rest' : List String}, ExprPlain e' → e.kind = e'.kind →
      expr n e ++ rest = expr n e' ++ rest' → e.shown = e'.shown ∧ rest = rest') :
    ExprLegible e :=
  fun _ _ _ _ he' hlines => h he' (kind_eq he he' hlines) hlines

theorem block {body : List Expr} (he : ExprPlain (.block m body))
    (hbody : ∀ e ∈ body, ExprLegible e) : ExprLegible (.block m body) := by
  refine of_kind he fun {n e' rest rest'} he' hkind h => ?_
  cases e' with
  | block m' body' =>
      rw [expr, expr] at h
      obtain ⟨hspan, -, h⟩ := framed_inj h
      obtain ⟨hshown, h⟩ := exprs_legible hbody (List.forall_mem_cons.mp he').2
        (stops_typeLine n _ _) (stops_typeLine n _ _) h
      obtain ⟨hmark, hrest⟩ := mark_inj hspan h
      exact ⟨by rw [Expr.shown, Expr.shown, hmark, hshown], hrest⟩
  | _ => cases hkind

theorem assign {x : Name} {value : Expr} (he : ExprPlain (.assign m x value))
    (hvalue : ExprLegible value) : ExprLegible (.assign m x value) := by
  refine of_kind he fun {n e' rest rest'} he' hkind h => ?_
  cases e' with
  | assign m' x' value' =>
      rw [expr, expr] at h
      obtain ⟨hspan, -, h⟩ := framed_inj h
      simp only [List.cons_append, List.cons.injEq] at h
      obtain ⟨hx, h⟩ := h
      have hx := word_inj (he.isWord x (List.mem_singleton_self x))
        (he'.isWord x' (List.mem_singleton_self x')) hx
      obtain ⟨hshown, h⟩ := hvalue (n + 2) (List.forall_mem_cons.mp he').2 h
      obtain ⟨hmark, hrest⟩ := mark_inj hspan h
      exact ⟨by rw [Expr.shown, Expr.shown, hmark, hx, hshown], hrest⟩
  | _ => cases hkind

theorem dispatch {receiver : Expr} {method : Name} {args : List Expr}
    (he : ExprPlain (.dispatch m receiver method args)) (hreceiver : ExprLegible receiver)
    (hargs : ∀ e ∈ args, ExprLegible e) :
    ExprLegible (.dispatch m receiver method args) := by
  refine of_kind he fun {n e' rest rest'} he' hkind h => ?_
  cases e' with
  | dispatch m' receiver' method' args' =>
      have hmethod := he.isWord method (List.mem_singleton_self _)
      have hmethod' := he'.isWord method' (List.mem_singleton_self _)
      simp only [ExprPlain, Expr.nodes, List.forall_mem_cons, List.forall_mem_append] at he'
      rw [expr, expr] at h
      obtain ⟨hspan, -, h⟩ := framed_inj h
      simp only [List.append_assoc, List.cons_append, List.nil_append] at h
      obtain ⟨hshown, h⟩ := hreceiver (n + 2) he'.2.1 h
      simp only [List.cons.injEq, true_and] at h
      obtain ⟨hm, h⟩ := h
      obtain ⟨hshown', hclose⟩ := exprs_legible hargs he'.2.2 (stops_close (n + 2) _)
        (stops_close (n + 2) _) h
      obtain ⟨hmark, hrest⟩ := mark_inj hspan (List.cons.inj hclose).2
      refine ⟨?_, hrest⟩
      rw [Expr.shown, Expr.shown, hmark, hshown, word_inj hmethod hmethod' hm, hshown']
  | _ => cases hkind

theorem staticDispatch {receiver : Expr} {target method : Name} {args : List Expr}
    (he : ExprPlain (.staticDispatch m receiver target method args))
    (hreceiver : ExprLegible receiver) (hargs : ∀ e ∈ args, ExprLegible e) :
    ExprLegible (.staticDispatch m receiver target method args) := by
  refine of_kind he fun {n e' rest rest'} he' hkind h => ?_
  cases e' with
  | staticDispatch m' receiver' target' method' args' =>
      obtain ⟨htarget, hmethod⟩ := List.forall_mem_cons.mp he.isWord
      rw [List.forall_mem_singleton] at hmethod
      obtain ⟨htarget', hmethod'⟩ := List.forall_mem_cons.mp he'.isWord
      rw [List.forall_mem_singleton] at hmethod'
      simp only [ExprPlain, Expr.nodes, List.forall_mem_cons, List.forall_mem_append] at he'
      rw [expr, expr] at h
      obtain ⟨hspan, -, h⟩ := framed_inj h
      simp only [List.append_assoc, List.cons_append, List.nil_append] at h
      obtain ⟨hshown, h⟩ := hreceiver (n + 2) he'.2.1 h
      simp only [List.cons.injEq, true_and] at h
      obtain ⟨ht, hm, h⟩ := h
      obtain ⟨hshown', hclose⟩ := exprs_legible hargs he'.2.2 (stops_close (n + 2) _)
        (stops_close (n + 2) _) h
      obtain ⟨hmark, hrest⟩ := mark_inj hspan (List.cons.inj hclose).2
      refine ⟨?_, hrest⟩
      rw [Expr.shown, Expr.shown, hmark, hshown, word_inj htarget htarget' ht,
        word_inj hmethod hmethod' hm, hshown']
  | _ => cases hkind

theorem cond {pred onTrue onFalse : Expr} (he : ExprPlain (.cond m pred onTrue onFalse))
    (hpred : ExprLegible pred) (htrue : ExprLegible onTrue) (hfalse : ExprLegible onFalse) :
    ExprLegible (.cond m pred onTrue onFalse) := by
  refine of_kind he fun {n e' rest rest'} he' hkind h => ?_
  cases e' with
  | cond m' pred' onTrue' onFalse' =>
      simp only [ExprPlain, Expr.nodes, List.forall_mem_cons, List.forall_mem_append] at he'
      rw [expr, expr] at h
      obtain ⟨hspan, -, h⟩ := framed_inj h
      simp only [List.append_assoc] at h
      obtain ⟨hp, h⟩ := hpred (n + 2) he'.2.1.1 h
      obtain ⟨ht, h⟩ := htrue (n + 2) he'.2.1.2 h
      obtain ⟨hf, h⟩ := hfalse (n + 2) he'.2.2 h
      obtain ⟨hmark, hrest⟩ := mark_inj hspan h
      exact ⟨by rw [Expr.shown, Expr.shown, hmark, hp, ht, hf], hrest⟩
  | _ => cases hkind

theorem loop {pred body : Expr} (he : ExprPlain (.loop m pred body)) (hpred : ExprLegible pred)
    (hbody : ExprLegible body) : ExprLegible (.loop m pred body) := by
  refine of_kind he fun {n e' rest rest'} he' hkind h => ?_
  cases e' with
  | loop m' pred' body' =>
      simp only [ExprPlain, Expr.nodes, List.forall_mem_cons, List.forall_mem_append] at he'
      rw [expr, expr] at h
      obtain ⟨hspan, -, h⟩ := framed_inj h
      simp only [List.append_assoc] at h
      obtain ⟨hp, h⟩ := hpred (n + 2) he'.2.1 h
      obtain ⟨hb, h⟩ := hbody (n + 2) he'.2.2 h
      obtain ⟨hmark, hrest⟩ := mark_inj hspan h
      exact ⟨by rw [Expr.shown, Expr.shown, hmark, hp, hb], hrest⟩
  | _ => cases hkind

theorem caseOf {scrutinee : Expr} {arms : List Branch} (he : ExprPlain (.caseOf m scrutinee arms))
    (hscrutinee : ExprLegible scrutinee) (harms : ∀ b ∈ arms, ExprLegible b.body) :
    ExprLegible (.caseOf m scrutinee arms) := by
  refine of_kind he fun {n e' rest rest'} he' hkind h => ?_
  cases e' with
  | caseOf m' scrutinee' arms' =>
      simp only [ExprPlain, Expr.nodes, List.forall_mem_cons, List.forall_mem_append] at he he'
      rw [expr, expr] at h
      obtain ⟨hspan, -, h⟩ := framed_inj h
      simp only [List.append_assoc] at h
      obtain ⟨hs, h⟩ := hscrutinee (n + 2) he'.2.1 h
      obtain ⟨hbs, h⟩ := branches_legible he.2.2 harms he'.2.2 (stops_typeLine n _ _)
        (stops_typeLine n _ _) h
      obtain ⟨hmark, hrest⟩ := mark_inj hspan h
      exact ⟨by rw [Expr.shown, Expr.shown, hmark, hs, hbs], hrest⟩
  | _ => cases hkind

theorem letIn {x type : Name} {init body : Expr} (he : ExprPlain (.letIn m x type init body))
    (hinit : ExprLegible init) (hbody : ExprLegible body) :
    ExprLegible (.letIn m x type init body) := by
  refine of_kind he fun {n e' rest rest'} he' hkind h => ?_
  cases e' with
  | letIn m' x' type' init' body' =>
      obtain ⟨hname, htype⟩ := List.forall_mem_cons.mp he.isWord
      rw [List.forall_mem_singleton] at htype
      obtain ⟨hname', htype'⟩ := List.forall_mem_cons.mp he'.isWord
      rw [List.forall_mem_singleton] at htype'
      simp only [ExprPlain, Expr.nodes, List.forall_mem_cons, List.forall_mem_append] at he'
      rw [expr, expr] at h
      obtain ⟨hspan, -, h⟩ := framed_inj h
      simp only [List.append_assoc, List.cons_append, List.cons.injEq] at h
      obtain ⟨hx, ht, h⟩ := h
      obtain ⟨hi, h⟩ := hinit (n + 2) he'.2.1 h
      obtain ⟨hb, h⟩ := hbody (n + 2) he'.2.2 h
      obtain ⟨hmark, hrest⟩ := mark_inj hspan h
      refine ⟨?_, hrest⟩
      rw [Expr.shown, Expr.shown, hmark, word_inj hname hname' hx, word_inj htype htype' ht,
        hi, hb]
  | _ => cases hkind

theorem binary {op : BinaryOp} {left right : Expr} (he : ExprPlain (.binary m op left right))
    (hleft : ExprLegible left) (hright : ExprLegible right) :
    ExprLegible (.binary m op left right) := by
  refine of_kind he fun {n e' rest rest'} he' hkind h => ?_
  cases e' with
  | binary m' op' left' right' =>
      simp only [ExprPlain, Expr.nodes, List.forall_mem_cons, List.forall_mem_append] at he'
      rw [expr, expr] at h
      obtain ⟨hspan, -, h⟩ := framed_inj h
      simp only [List.append_assoc] at h
      obtain ⟨hl, h⟩ := hleft (n + 2) he'.2.1 h
      obtain ⟨hr, h⟩ := hright (n + 2) he'.2.2 h
      obtain ⟨hmark, hrest⟩ := mark_inj hspan h
      exact ⟨by rw [Expr.shown, Expr.shown, hmark, Kind.binary.inj hkind, hl, hr], hrest⟩
  | _ => cases hkind

theorem unary {op : UnaryOp} {operand : Expr} (he : ExprPlain (.unary m op operand))
    (hoperand : ExprLegible operand) : ExprLegible (.unary m op operand) := by
  refine of_kind he fun {n e' rest rest'} he' hkind h => ?_
  cases e' with
  | unary m' op' operand' =>
      rw [expr, expr] at h
      obtain ⟨hspan, -, h⟩ := framed_inj h
      obtain ⟨hshown, h⟩ := hoperand (n + 2) (List.forall_mem_cons.mp he').2 h
      obtain ⟨hmark, hrest⟩ := mark_inj hspan h
      exact ⟨by rw [Expr.shown, Expr.shown, hmark, Kind.unary.inj hkind, hshown], hrest⟩
  | _ => cases hkind

theorem int {token : String} (he : ExprPlain (.int m token)) : ExprLegible (.int m token) := by
  refine of_kind he fun {n e' rest rest'} he' hkind h => ?_
  cases e' with
  | int m' token' =>
      rw [expr, expr] at h
      obtain ⟨hmark, htoken, hrest⟩ := leaf_inj h
      exact ⟨by rw [Expr.shown, Expr.shown, hmark, htoken], hrest⟩
  | _ => cases hkind

theorem string {value : String} (he : ExprPlain (.string m value)) :
    ExprLegible (.string m value) := by
  refine of_kind he fun {n e' rest rest'} he' hkind h => ?_
  cases e' with
  | string m' value' =>
      rw [expr, expr] at h
      obtain ⟨hmark, hvalue, hrest⟩ := leaf_inj h
      exact ⟨by rw [Expr.shown, Expr.shown, hmark, quoted_inj hvalue], hrest⟩
  | _ => cases hkind

theorem bool {value : Bool} (he : ExprPlain (.bool m value)) : ExprLegible (.bool m value) := by
  refine of_kind he fun {n e' rest rest'} he' hkind h => ?_
  cases e' with
  | bool m' value' =>
      rw [expr, expr] at h
      obtain ⟨hmark, hdigit, hrest⟩ := leaf_inj h
      have hvalue : value = value' := by
        revert hdigit
        cases value <;> cases value' <;> decide
      exact ⟨by rw [Expr.shown, Expr.shown, hmark, hvalue], hrest⟩
  | _ => cases hkind

theorem new {x : Name} (he : ExprPlain (.new m x)) : ExprLegible (.new m x) := by
  refine of_kind he fun {n e' rest rest'} he' hkind h => ?_
  cases e' with
  | new m' x' =>
      rw [expr, expr] at h
      obtain ⟨hmark, hx, hrest⟩ := nameLeaf_inj (he.isWord x (List.mem_singleton_self _))
        (he'.isWord x' (List.mem_singleton_self _)) h
      exact ⟨by rw [Expr.shown, Expr.shown, hmark, hx], hrest⟩
  | _ => cases hkind

theorem object {x : Name} (he : ExprPlain (.object m x)) : ExprLegible (.object m x) := by
  refine of_kind he fun {n e' rest rest'} he' hkind h => ?_
  cases e' with
  | object m' x' =>
      rw [expr, expr] at h
      obtain ⟨hmark, hx, hrest⟩ := nameLeaf_inj (he.isWord x (List.mem_singleton_self _))
        (he'.isWord x' (List.mem_singleton_self _)) h
      exact ⟨by rw [Expr.shown, Expr.shown, hmark, hx], hrest⟩
  | _ => cases hkind

end ExprLegible

/-! ## All constructs -/

mutual

theorem expr_legible : ∀ {e : Expr}, ExprPlain e → ExprLegible e
  | .missing, he => .of_kind he fun _ hkind h => absent_legible rfl hkind.symm h
  | .noExpr _, he => .of_kind he fun _ hkind h => absent_legible rfl hkind.symm h
  | .block _ _, he => .block he (exprs_allLegible (List.forall_mem_cons.mp he).2)
  | .assign _ _ _, he => .assign he (expr_legible (List.forall_mem_cons.mp he).2)
  | .dispatch _ _ _ _, he => by
      obtain ⟨hreceiver, hargs⟩ := List.forall_mem_append.mp (List.forall_mem_cons.mp he).2
      exact .dispatch he (expr_legible hreceiver) (exprs_allLegible hargs)
  | .staticDispatch _ _ _ _ _, he => by
      obtain ⟨hreceiver, hargs⟩ := List.forall_mem_append.mp (List.forall_mem_cons.mp he).2
      exact .staticDispatch he (expr_legible hreceiver) (exprs_allLegible hargs)
  | .cond _ _ _ _, he => by
      obtain ⟨htest, hfalse⟩ := List.forall_mem_append.mp (List.forall_mem_cons.mp he).2
      obtain ⟨hpred, htrue⟩ := List.forall_mem_append.mp htest
      exact .cond he (expr_legible hpred) (expr_legible htrue) (expr_legible hfalse)
  | .loop _ _ _, he => by
      obtain ⟨hpred, hbody⟩ := List.forall_mem_append.mp (List.forall_mem_cons.mp he).2
      exact .loop he (expr_legible hpred) (expr_legible hbody)
  | .caseOf _ _ _, he => by
      obtain ⟨hscrutinee, harms⟩ := List.forall_mem_append.mp (List.forall_mem_cons.mp he).2
      exact .caseOf he (expr_legible hscrutinee) (branches_allLegible harms)
  | .letIn _ _ _ _ _, he => by
      obtain ⟨hinit, hbody⟩ := List.forall_mem_append.mp (List.forall_mem_cons.mp he).2
      exact .letIn he (expr_legible hinit) (expr_legible hbody)
  | .binary _ _ _ _, he => by
      obtain ⟨hleft, hright⟩ := List.forall_mem_append.mp (List.forall_mem_cons.mp he).2
      exact .binary he (expr_legible hleft) (expr_legible hright)
  | .unary _ _ _, he => .unary he (expr_legible (List.forall_mem_cons.mp he).2)
  | .int _ _, he => .int he
  | .string _ _, he => .string he
  | .bool _ _, he => .bool he
  | .new _ _, he => .new he
  | .object _ _, he => .object he
termination_by structural e => e

theorem exprs_allLegible : ∀ {es : List Expr},
    (∀ node ∈ Expr.nodesAll es, node.isPlain = true) → ∀ e ∈ es, ExprLegible e
  | [], _ => nofun
  | e :: es, hes => by
      rw [Expr.nodesAll, List.forall_mem_append] at hes
      exact List.forall_mem_cons.mpr ⟨expr_legible hes.1, exprs_allLegible hes.2⟩
termination_by structural es => es

theorem branches_allLegible : ∀ {bs : List Branch},
    (∀ node ∈ Branch.nodesAll bs, node.isPlain = true) → ∀ b ∈ bs, ExprLegible b.body
  | [], _ => nofun
  | .mk _ _ _ body :: bs, hbs => by
      rw [Branch.nodesAll, List.forall_mem_cons, List.forall_mem_append] at hbs
      exact List.forall_mem_cons.mpr ⟨expr_legible hbs.2.1, branches_allLegible hbs.2.2⟩
termination_by structural bs => bs

end

/-! ## Features and classes -/

def FormalPlain (f : Formal) : Prop :=
  f.name.isWord = true ∧ f.type.isWord = true

theorem formal_legible {f : Formal} (hf : FormalPlain f) (n : Nat) :
    Legible (formal n) Formal.shown FormalPlain f := by
  intro f' rest rest' hf' h
  simp only [formal, List.cons_append, List.nil_append, List.cons.injEq] at h
  obtain ⟨hspan, -, hname, htype, hrest⟩ := h
  refine ⟨?_, hrest⟩
  rw [Formal.shown, Formal.shown, position_inj hspan, word_inj hf.1 hf'.1 hname,
    word_inj hf.2 hf'.2 htype]

/-- The nodes of a feature are plain. -/
def FeaturePlain (f : Feature) : Prop :=
  ∀ node ∈ f.nodes, node.isPlain = true

theorem FeaturePlain.method {m : Method} (hm : FeaturePlain (.method m)) :
    m.name.isWord = true ∧ m.result.isWord = true ∧ (∀ f ∈ m.formals, FormalPlain f) ∧
      ExprPlain m.body := by
  simp only [FeaturePlain, Feature.nodes, List.forall_mem_cons, List.forall_mem_append,
    List.forall_mem_map, Node.isPlain, Bool.and_eq_true] at hm
  exact ⟨hm.1.1, hm.1.2, hm.2.1, hm.2.2⟩

theorem FeaturePlain.attr {a : Attribute} (ha : FeaturePlain (.attr a)) :
    a.name.isWord = true ∧ a.type.isWord = true ∧ ExprPlain a.init := by
  simp only [FeaturePlain, Feature.nodes, List.forall_mem_cons, Node.isPlain,
    Bool.and_eq_true] at ha
  exact ⟨ha.1.1, ha.1.2, ha.2⟩

theorem method_legible {m m' : Method} (hm : FeaturePlain (.method m))
    (hm' : FeaturePlain (.method m')) {n : Nat} {rest rest' : List String}
    (h : feature n (.method m) ++ rest = feature n (.method m') ++ rest') :
    (Feature.method m).shown = (Feature.method m').shown ∧ rest = rest' := by
  obtain ⟨hname, hresult, hformals, hbody⟩ := hm.method
  obtain ⟨hname', hresult', hformals', hbody'⟩ := hm'.method
  simp only [feature, List.cons_append, List.append_assoc, List.cons.injEq, true_and] at h
  obtain ⟨hspan, hx, h⟩ := h
  obtain ⟨hshown, h⟩ := Legible.flatMap (fun f => ⟨_, _, rfl⟩)
    (fun f hf => formal_legible (hformals f hf) (n + 2)) hformals'
    (stops_word hresult (n + 2) _) (stops_word hresult' (n + 2) _) h
  obtain ⟨ht, h⟩ := List.cons.inj h
  obtain ⟨hexpr, hrest⟩ := expr_legible hbody (n + 2) hbody' h
  refine ⟨?_, hrest⟩
  rw [Feature.shown, Feature.shown, position_inj hspan, word_inj hname hname' hx, hshown,
    word_inj hresult hresult' ht, hexpr]

theorem attr_legible {a a' : Attribute} (ha : FeaturePlain (.attr a))
    (ha' : FeaturePlain (.attr a')) {n : Nat} {rest rest' : List String}
    (h : feature n (.attr a) ++ rest = feature n (.attr a') ++ rest') :
    (Feature.attr a).shown = (Feature.attr a').shown ∧ rest = rest' := by
  obtain ⟨hname, htype, hinit⟩ := ha.attr
  obtain ⟨hname', htype', hinit'⟩ := ha'.attr
  simp only [feature, List.cons_append, List.cons.injEq, true_and] at h
  obtain ⟨hspan, hx, ht, h⟩ := h
  obtain ⟨hexpr, hrest⟩ := expr_legible hinit (n + 2) hinit' h
  refine ⟨?_, hrest⟩
  rw [Feature.shown, Feature.shown, position_inj hspan, word_inj hname hname' hx,
    word_inj htype htype' ht, hexpr]

theorem feature_legible {f : Feature} (hf : FeaturePlain f) (n : Nat) :
    Legible (feature n) Feature.shown FeaturePlain f := by
  -- a method and an attribute have different tags
  have htags : indent n "_method" ≠ indent n "_attr" := fun h => absurd (indent_inj h) (by decide)
  intro f' rest rest' hf' h
  cases f with
  | method m =>
      cases f' with
      | method m' => exact method_legible hf hf' h
      | attr a' => exact absurd (List.cons.inj (List.cons.inj h).2).1 htags
  | attr a =>
      cases f' with
      | method m' => exact absurd (List.cons.inj (List.cons.inj h).2).1 htags.symm
      | attr a' => exact attr_legible hf hf' h

theorem feature_starts (n : Nat) (f : Feature) :
    ∃ span tail, feature n f = position n span :: tail := by
  cases f <;> exact ⟨_, _, rfl⟩

/-- The nodes of a class are plain. -/
def ClassPlain (c : ClassDecl) : Prop :=
  ∀ node ∈ c.nodes, node.isPlain = true

theorem ClassPlain.own {c : ClassDecl} (hc : ClassPlain c) :
    c.name.isWord = true ∧ ∀ f ∈ c.features, FeaturePlain f := by
  obtain ⟨hown, hfeatures⟩ := List.forall_mem_cons.mp hc
  rw [Node.isPlain, Bool.and_eq_true] at hown
  exact ⟨hown.1, fun f hf node hnode => hfeatures node (List.mem_flatMap.mpr ⟨f, hf, hnode⟩)⟩

theorem classDecl_starts (n : Nat) (c : ClassDecl) :
    ∃ span tail, classDecl n c = position n span :: tail :=
  ⟨_, _, rfl⟩

theorem classDecl_legible {c : ClassDecl} (hc : ClassPlain c) (n : Nat) :
    Legible (classDecl n) ClassDecl.shown ClassPlain c := by
  intro c' rest rest' hc' h
  obtain ⟨hname, hfeatures⟩ := hc.own
  obtain ⟨hname', hfeatures'⟩ := hc'.own
  simp only [classDecl, List.cons_append, List.append_assoc, List.nil_append, List.cons.injEq,
    true_and] at h
  obtain ⟨hspan, hx, hparent, hfile, h⟩ := h
  obtain ⟨hshown, h⟩ := Legible.flatMap (feature_starts (n + 2))
    (fun f hf => feature_legible (hfeatures f hf) (n + 2)) hfeatures'
    (stops_close (n + 2) _) (stops_close (n + 2) _) h
  -- the position gives the line and the quoted text the file
  have hwhole : c.span = c'.span := by
    have hline : c.span.shown.line = c'.span.shown.line :=
      congrArg Span.line (position_inj hspan)
    have hname : c.span.file = c'.span.file := quoted_inj (indent_inj hfile)
    calc c.span = ⟨c.span.file, c.span.line⟩ := rfl
      _ = ⟨c'.span.file, c'.span.shown.line⟩ := by rw [hname, ← hline]; rfl
      _ = c'.span := rfl
  refine ⟨?_, (List.cons.inj h).2⟩
  rw [ClassDecl.shown, ClassDecl.shown, hwhole, word_inj hname hname' hx,
    parentText_inj (indent_inj hparent), hshown]

/-! ## Every line is one line -/

theorem oneLine_bracket (n : Nat) : OneLine (indent n "(") ∧ OneLine (indent n ")") := by
  refine ⟨oneLine_indent ?_ n, oneLine_indent ?_ n⟩
  · unfold OneLine
    decide
  · unfold OneLine
    decide

theorem oneLine_framed {n : Nat} {e : Expr} {m : Mark} {tag : String} {parts : List String}
    (he : ExprPlain e) (htag : tag = e.kind.tag) (hm : m.type = e.type)
    (hparts : ∀ l ∈ parts, OneLine l) : ∀ l ∈ framed n m tag parts, OneLine l := by
  have hannotation := he.own.1.1
  rw [← hm] at hannotation
  simp only [htag, framed, List.cons_append, List.forall_mem_cons, List.forall_mem_append]
  exact ⟨oneLine_position n _, oneLine_indent (Kind.oneLine_tag he.isKnown) n, hparts,
    oneLine_typeLine hannotation n, List.forall_mem_nil _⟩

theorem oneLine_digits {token : String} (h : token.toList.all Char.isDigit = true) :
    OneLine token := by
  intro hmem
  exact absurd (List.all_eq_true.mp h _ hmem) (by decide)

mutual

theorem expr_oneLine (n : Nat) : ∀ {e : Expr}, ExprPlain e → ∀ l ∈ expr n e, OneLine l
  | .missing, he => oneLine_framed he rfl rfl nofun
  | .noExpr _, he => oneLine_framed he rfl rfl nofun
  | .block _ _, he =>
      oneLine_framed he rfl rfl (exprs_oneLine (n + 2) (List.forall_mem_cons.mp he).2)
  | .assign _ x _, he => by
      refine oneLine_framed he rfl rfl (List.forall_mem_cons.mpr ⟨?_, ?_⟩)
      · exact oneLine_indent (oneLine_word (he.isWord x (List.mem_singleton_self x))) _
      · exact expr_oneLine (n + 2) (List.forall_mem_cons.mp he).2
  | .dispatch _ _ method _, he => by
      have hmethod := oneLine_word (he.isWord method (List.mem_singleton_self _))
      refine oneLine_framed he rfl rfl ?_
      simp only [ExprPlain, Expr.nodes, List.forall_mem_cons, List.forall_mem_append] at he
      simp only [List.append_assoc, List.cons_append, List.forall_mem_cons, List.forall_mem_append]
      exact ⟨expr_oneLine (n + 2) he.2.1, oneLine_indent hmethod (n + 2),
        (oneLine_bracket (n + 2)).1, exprs_oneLine (n + 2) he.2.2, (oneLine_bracket (n + 2)).2,
        nofun⟩
  | .staticDispatch _ _ target method _, he => by
      obtain ⟨htarget, hmethod⟩ := List.forall_mem_cons.mp he.isWord
      rw [List.forall_mem_singleton] at hmethod
      refine oneLine_framed he rfl rfl ?_
      simp only [ExprPlain, Expr.nodes, List.forall_mem_cons, List.forall_mem_append] at he
      simp only [List.append_assoc, List.cons_append, List.forall_mem_cons, List.forall_mem_append]
      exact ⟨expr_oneLine (n + 2) he.2.1, oneLine_indent (oneLine_word htarget) (n + 2),
        oneLine_indent (oneLine_word hmethod) (n + 2), (oneLine_bracket (n + 2)).1,
        exprs_oneLine (n + 2) he.2.2, (oneLine_bracket (n + 2)).2, nofun⟩
  | .cond _ _ _ _, he => by
      refine oneLine_framed he rfl rfl ?_
      simp only [ExprPlain, Expr.nodes, List.forall_mem_cons, List.forall_mem_append] at he
      rw [List.forall_mem_append, List.forall_mem_append]
      exact ⟨⟨expr_oneLine (n + 2) he.2.1.1, expr_oneLine (n + 2) he.2.1.2⟩,
        expr_oneLine (n + 2) he.2.2⟩
  | .loop _ _ _, he | .binary _ _ _ _, he => by
      refine oneLine_framed he rfl rfl ?_
      simp only [ExprPlain, Expr.nodes, List.forall_mem_cons, List.forall_mem_append] at he
      rw [List.forall_mem_append]
      exact ⟨expr_oneLine (n + 2) he.2.1, expr_oneLine (n + 2) he.2.2⟩
  | .caseOf _ _ _, he => by
      refine oneLine_framed he rfl rfl ?_
      simp only [ExprPlain, Expr.nodes, List.forall_mem_cons, List.forall_mem_append] at he
      rw [List.forall_mem_append]
      exact ⟨expr_oneLine (n + 2) he.2.1, branches_oneLine (n + 2) he.2.2⟩
  | .letIn _ _ _ _ _, he => by
      obtain ⟨hname, htype⟩ := List.forall_mem_cons.mp he.isWord
      rw [List.forall_mem_singleton] at htype
      refine oneLine_framed he rfl rfl ?_
      simp only [ExprPlain, Expr.nodes, List.forall_mem_cons, List.forall_mem_append] at he
      simp only [List.cons_append, List.forall_mem_cons, List.forall_mem_append]
      exact ⟨oneLine_indent (oneLine_word hname) _, oneLine_indent (oneLine_word htype) _,
        expr_oneLine (n + 2) he.2.1, expr_oneLine (n + 2) he.2.2⟩
  | .unary _ _ _, he =>
      oneLine_framed he rfl rfl (expr_oneLine (n + 2) (List.forall_mem_cons.mp he).2)
  | .int _ _, he => by
      refine oneLine_framed he rfl rfl (List.forall_mem_singleton.mpr ?_)
      exact oneLine_indent (oneLine_digits he.own.2) _
  | .string _ value, he => by
      refine oneLine_framed he rfl rfl (List.forall_mem_singleton.mpr ?_)
      exact oneLine_indent (oneLine_quoted value) _
  | .bool _ value, he => by
      refine oneLine_framed he rfl rfl (List.forall_mem_singleton.mpr (oneLine_indent ?_ _))
      unfold OneLine
      cases value <;> decide
  | .new _ x, he | .object _ x, he => by
      refine oneLine_framed he rfl rfl (List.forall_mem_singleton.mpr ?_)
      exact oneLine_indent (oneLine_word (he.isWord x (List.mem_singleton_self x))) _
termination_by structural e => e

theorem exprs_oneLine (n : Nat) : ∀ {es : List Expr},
    (∀ node ∈ Expr.nodesAll es, node.isPlain = true) → ∀ l ∈ exprs n es, OneLine l
  | [], _ => nofun
  | e :: es, hes => by
      rw [Expr.nodesAll, List.forall_mem_append] at hes
      rw [exprs, List.forall_mem_append]
      exact ⟨expr_oneLine n hes.1, exprs_oneLine n hes.2⟩
termination_by structural es => es

theorem branches_oneLine (n : Nat) : ∀ {bs : List Branch},
    (∀ node ∈ Branch.nodesAll bs, node.isPlain = true) → ∀ l ∈ branches n bs, OneLine l
  | [], _ => nofun
  | .mk _ _ _ body :: bs, hbs => by
      have hb := branchPlain_of_mem hbs _ List.mem_cons_self
      rw [Branch.nodesAll, List.forall_mem_cons, List.forall_mem_append] at hbs
      simp only [branches, List.cons_append, List.forall_mem_cons, List.forall_mem_append]
      refine ⟨oneLine_position n _, oneLine_indent ?_ n, oneLine_indent (oneLine_word hb.1) _,
        oneLine_indent (oneLine_word hb.2.1) _, expr_oneLine (n + 2) hbs.2.1,
        branches_oneLine n hbs.2.2⟩
      unfold OneLine
      decide
termination_by structural bs => bs

end

theorem formal_oneLine {f : Formal} (hf : FormalPlain f) (n : Nat) :
    ∀ l ∈ formal n f, OneLine l := by
  simp only [formal, List.forall_mem_cons]
  refine ⟨oneLine_position n _, oneLine_indent ?_ n, oneLine_indent (oneLine_word hf.1) _,
    oneLine_indent (oneLine_word hf.2) _, nofun⟩
  unfold OneLine
  decide

theorem feature_oneLine {f : Feature} (hf : FeaturePlain f) (n : Nat) :
    ∀ l ∈ feature n f, OneLine l := by
  cases f with
  | method m =>
      obtain ⟨hname, hresult, hformals, hbody⟩ := hf.method
      simp only [feature, List.cons_append, List.forall_mem_cons, List.forall_mem_append]
      refine ⟨oneLine_position n _, oneLine_indent ?_ n, oneLine_indent (oneLine_word hname) _,
        List.forall_mem_flatMap.mpr fun f hf => formal_oneLine (hformals f hf) (n + 2),
        oneLine_indent (oneLine_word hresult) _, expr_oneLine (n + 2) hbody⟩
      unfold OneLine
      decide
  | attr a =>
      obtain ⟨hname, htype, hinit⟩ := hf.attr
      simp only [feature, List.forall_mem_cons]
      refine ⟨oneLine_position n _, oneLine_indent ?_ n, oneLine_indent (oneLine_word hname) _,
        oneLine_indent (oneLine_word htype) _, expr_oneLine (n + 2) hinit⟩
      unfold OneLine
      decide

theorem oneLine_parentText {c : ClassDecl} (hc : ClassPlain c) : OneLine (parentText c.parent) := by
  have hown := (List.forall_mem_cons.mp hc).1
  simp only [Node.isPlain, Bool.and_eq_true, Bool.or_eq_true, decide_eq_true_eq] at hown
  rcases hown.2 with hparent | hparent
  · rw [hparent]
    unfold OneLine
    decide
  · have hword := oneLine_word hparent
    cases hname : c.parent with
    | anonymous =>
        rw [hname] at hparent
        cases hparent
    | named t =>
        rw [hname] at hword
        exact hword

theorem classDecl_oneLine {c : ClassDecl} (hc : ClassPlain c) (n : Nat) :
    ∀ l ∈ classDecl n c, OneLine l := by
  obtain ⟨hname, hfeatures⟩ := hc.own
  simp only [classDecl, List.cons_append, List.forall_mem_cons, List.forall_mem_append]
  refine ⟨oneLine_position n _, oneLine_indent ?_ n, oneLine_indent (oneLine_word hname) _,
    oneLine_indent (oneLine_parentText hc) _, oneLine_indent (oneLine_quoted _) _,
    (oneLine_bracket _).1, ?_, (oneLine_bracket _).2, nofun⟩
  · unfold OneLine
    decide
  · exact List.forall_mem_flatMap.mpr fun f hf => feature_oneLine (hfeatures f hf) (n + 2)

end Dump

/-! ## Programs -/

namespace Program

/-- Whether the nodes of a program are plain. -/
def isPlain (p : Program) : Bool :=
  p.nodes.all Node.isPlain

theorem classPlain_of_isPlain {p : Program} (hp : p.isPlain = true) :
    ∀ c ∈ p.classes, Dump.ClassPlain c := by
  intro c hc node hnode
  refine List.all_eq_true.mp hp node ?_
  exact List.mem_cons_of_mem _ (List.mem_flatMap.mpr ⟨c, hc, hnode⟩)

theorem dumpLines_oneLine {p : Program} (hp : p.isPlain = true) :
    ∀ l ∈ p.dumpLines, Dump.OneLine l := by
  refine List.forall_mem_cons.mpr ⟨Dump.oneLine_position 0 _, List.forall_mem_cons.mpr ⟨?_, ?_⟩⟩
  · unfold Dump.OneLine
    decide
  · exact List.forall_mem_flatMap.mpr fun c hc =>
      Dump.classDecl_oneLine (classPlain_of_isPlain hp c hc) 2

theorem shown_eq_of_dumpLines_eq {p q : Program} (hp : p.isPlain = true) (hq : q.isPlain = true)
    (h : p.dumpLines = q.dumpLines) : p.shown = q.shown := by
  obtain ⟨hspan, h⟩ := List.cons.inj h
  have hclasses := (List.cons.inj h).2
  rw [← List.append_nil (p.classes.flatMap _), ← List.append_nil (q.classes.flatMap _)] at hclasses
  obtain ⟨hshown, -⟩ := Dump.Legible.flatMap (Dump.classDecl_starts 2)
    (fun c hc => Dump.classDecl_legible (classPlain_of_isPlain hp c hc) 2)
    (classPlain_of_isPlain hq) (Dump.stops_nil 2) (Dump.stops_nil 2) hclasses
  rw [Program.shown, Program.shown, Dump.position_inj hspan, hshown]

/-- Two programs have one dump exactly when a dump shows one tree for both. -/
theorem dump_eq_iff_shown_eq {p q : Program} (hp : p.isPlain = true) (hq : q.isPlain = true) :
    p.dump = q.dump ↔ p.shown = q.shown := by
  constructor
  · intro h
    exact shown_eq_of_dumpLines_eq hp hq
      (Dump.unlines_inj (dumpLines_oneLine hp) (dumpLines_oneLine hq) h)
  · intro h
    rw [← dump_shown p, ← dump_shown q, h]

/-- A class in an oddly named file, with an attribute and a method that returns a text. -/
def labelled (parent : Name) (init : Expr) (label : String) : Program where
  span := { line := 1 }
  classes :=
    [{ span := ⟨"a\"\n(", 1⟩
       name := .named "Main"
       parent := parent
       features :=
         [.attr { span := { line := 2 }, name := .named "x", type := .named "Int", init := init },
          .method
            { span := { line := 3 }
              name := .named "main"
              formals := []
              result := .named "String"
              body := .string ⟨{ line := 3 }, .anonymous⟩ label }] }]

/-- The default parent and an absent initializer look as when they are written out, and a text that
spells the end of a dump does not look like that end. -/
theorem dump_eq_iff_shown_eq_labelled :
    let sparse := labelled .anonymous .missing "\"\n      : _no_type\n    )"
    let full := labelled .object (.noExpr ⟨{}, .noType⟩) "\"\n      : _no_type\n    )"
    let short := labelled .object (.noExpr ⟨{}, .noType⟩) ""
    sparse.dump = full.dump ∧ full.dump ≠ short.dump := by
  refine ⟨(dump_eq_iff_shown_eq (by decide) (by decide)).mpr rfl, fun h => ?_⟩
  have hshown := (dump_eq_iff_shown_eq (by decide) (by decide)).mp h
  simp [labelled, shown, ClassDecl.shown, Feature.shown, Expr.shown] at hshown

end Program

end Cool
