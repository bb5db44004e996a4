import Cool.Document.Decode
import Cool.Proofs.Document.Readable

/-! Trees read from documents. Whatever a document says, the tree it describes is readable: no part
of it is missing, all operators have names, and all places are in one file. Nor does it hold anything
that a document does not tell. -/

namespace Cool.Document

variable {α β : Type}

/-- A reader that only returns values with a property. -/
def Yields (P : α → Prop) (x : Except Error α) : Prop :=
  ∀ a, x = .ok a → P a

namespace Yields

theorem ok {P : α → Prop} {a : α} (ha : P a) : Yields P (.ok a) := by
  intro b hb
  cases hb
  exact ha

theorem error {P : α → Prop} (e : Error) : Yields P (.error e) := by
  intro b hb
  cases hb

theorem any (x : Except Error α) : Yields (fun _ => True) x :=
  fun _ _ => trivial

theorem bind {P : α → Prop} {Q : β → Prop} {x : Except Error α} {f : α → Except Error β}
    (hx : Yields P x) (hf : ∀ a, P a → Yields Q (f a)) : Yields Q (x >>= f) := by
  cases x with
  | error e => exact error e
  | ok a => exact hf a (hx a rfl)

theorem weaken {P Q : α → Prop} {x : Except Error α} (hx : Yields P x) (hpq : ∀ a, P a → Q a) :
    Yields Q x :=
  fun a ha => hpq a (hx a ha)

/-- A list is read where each of its elements is. -/
theorem decodeAll {P : β → Prop} {path : Path} {decode : Path → α → Except Error β} {as : List α}
    {i : Nat} (hdecode : ∀ path, ∀ a ∈ as, Yields P (decode path a)) :
    Yields (∀ b ∈ ·, P b) (decodeAll path decode i as) := by
  induction as generalizing i with
  | nil => exact ok (by simp)
  | cons a as ih =>
      refine (hdecode _ a List.mem_cons_self).bind fun b hb => ?_
      refine (ih fun path c hc => hdecode path c (List.mem_cons_of_mem _ hc)).bind fun bs hbs => ?_
      exact ok (List.forall_mem_cons.mpr ⟨hb, hbs⟩)

end Yields

/-! ## Fields -/

theorem tag_of_binaryOf? {kind : String} {op : BinaryOp} (hop : binaryOf? kind = some op) :
    op.tag?.isSome = true := by
  have htag : op.tag? = some kind := by simpa using List.find?_some hop
  rw [htag]
  rfl

theorem tag_of_unaryOf? {kind : String} {op : UnaryOp} (hop : unaryOf? kind = some op) :
    op.tag?.isSome = true := by
  have htag : op.tag? = some kind := by simpa using List.find?_some hop
  rw [htag]
  rfl

theorem wholeNumber_bounds {spelling : String} {i : Int} (hi : wholeNumber spelling = some i) :
    -0x8000000000000000 ≤ i ∧ i < 0x8000000000000000 := by
  unfold wholeNumber at hi
  split at hi
  dsimp only at hi
  rw [Option.ite_none_right_eq_some, Option.ite_none_right_eq_some] at hi
  obtain ⟨-, hbounds, hsome⟩ := hi
  rwa [Option.some.inj hsome] at hbounds

theorem span_isIn (file : String) (path : Path) (ms : Members) :
    Yields (·.isIn file = true) (span file path ms) := by
  unfold span
  split
  · exact .ok (by simp [Span.isIn])
  · split
    · rename_i line hline
      exact .ok (by simpa [Span.isIn] using wholeNumber_bounds hline)
    · exact .error _
  · exact .error _

theorem name_spelled (path : Path) (ms : Members) (key : String) :
    Yields (fun n => n.spelled = n) (name path ms key) := by
  unfold name
  cases text path ms key with
  | error e => exact .error e
  | ok s => exact .ok rfl

theorem integerToken_isDigits (path : Path) (ms : Members) :
    Yields (isDigits · = true) (integerToken path ms) := by
  unfold integerToken
  split
  · exact .error _
  · split
    · exact .error _
    · split
      · rename_i hne hall
        exact .ok (by simp [isDigits, hne, hall])
      · exact .error _

/-! ## Expressions -/

/-- What is known of an expression that was read. -/
structure ReadExpr (file : String) (e : Expr) : Prop where
  written : e.isWritten = true
  nodes : ∀ n ∈ e.nodes, n.IsReadable file
  bare : e.bare = e

/-- What is known of a branch that was read. -/
structure ReadBranch (file : String) (b : Branch) : Prop where
  span : b.span.isIn file = true
  name : b.name.spelled = b.name
  type : b.type.spelled = b.type
  body : ReadExpr file b.body

/-- What is known of expressions that were read one after the other. -/
structure ReadAll (file : String) (es : List Expr) : Prop where
  written : Expr.allWritten es = true
  nodes : ∀ n ∈ Expr.nodesAll es, n.IsReadable file
  bare : Expr.bareAll es = es

structure ReadBranches (file : String) (bs : List Branch) : Prop where
  written : Branch.allWritten bs = true
  nodes : ∀ n ∈ Branch.nodesAll bs, n.IsReadable file
  bare : Branch.bareAll bs = bs

theorem ReadAll.of_forall {file : String} {es : List Expr} (hes : ∀ e ∈ es, ReadExpr file e) :
    ReadAll file es := by
  induction es with
  | nil => exact ⟨rfl, by simp [Expr.nodesAll], rfl⟩
  | cons e es ih =>
      obtain ⟨he, hrest⟩ := List.forall_mem_cons.mp hes
      have hall := ih hrest
      refine ⟨?_, ?_, ?_⟩
      · rw [Expr.allWritten, he.written, hall.written]
        rfl
      · rw [Expr.nodesAll, List.forall_mem_append]
        exact ⟨he.nodes, hall.nodes⟩
      · rw [Expr.bareAll, he.bare, hall.bare]

theorem ReadBranches.of_forall {file : String} {bs : List Branch}
    (hbs : ∀ b ∈ bs, ReadBranch file b) : ReadBranches file bs := by
  induction bs with
  | nil => exact ⟨rfl, by simp [Branch.nodesAll], rfl⟩
  | cons b bs ih =>
      obtain ⟨hb, hrest⟩ := List.forall_mem_cons.mp hbs
      obtain ⟨place, x, guard, body⟩ := b
      have hall := ih hrest
      refine ⟨?_, ?_, ?_⟩
      · rw [Branch.allWritten, hall.written, Bool.and_true]
        exact hb.body.written
      · rw [Branch.nodesAll, List.forall_mem_cons, List.forall_mem_append]
        exact ⟨⟨hb.span, fun _ htoken => by cases htoken⟩, hb.body.nodes, hall.nodes⟩
      · rw [Branch.bareAll, hall.bare, show body.bare = body from hb.body.bare,
          show x.spelled = x from hb.name, show guard.spelled = guard from hb.type]

mutual

/-- Every expression read from a document is readable. -/
theorem read_expr (file : String) (path : Path) (j : Json) :
    Yields (ReadExpr file) (expr file path j) := by
  unfold expr
  split
  · rename_i ms
    refine (Yields.any _).bind fun kind _ => (span_isIn file path ms).bind fun place hplace => ?_
    have hroot : ∀ e : Expr, e.span? = some place → (Node.expr e).token? = none →
        (Node.expr e).IsReadable file := by
      intro e hspan htoken
      refine ⟨?_, by simp [htoken]⟩
      rw [Node.span, hspan]
      exact hplace
    dsimp only
    split
    · rename_i op hop
      refine (read_exprField file path ms "left").bind fun left hl => ?_
      refine (read_exprField file path ms "right").bind fun right hr => .ok ⟨?_, ?_, ?_⟩
      · simp [Expr.isWritten, tag_of_binaryOf? hop, hl.written, hr.written]
      · simp only [Expr.nodes, List.forall_mem_cons, List.forall_mem_append]
        exact ⟨hroot _ rfl rfl, hl.nodes, hr.nodes⟩
      · simp [Expr.bare, Mark.bare, hl.bare, hr.bare]
    · rename_i op _ hop
      refine (read_exprField file path ms "expr").bind fun operand ho => .ok ⟨?_, ?_, ?_⟩
      · simp [Expr.isWritten, tag_of_unaryOf? hop, ho.written]
      · simp only [Expr.nodes, List.forall_mem_cons]
        exact ⟨hroot _ rfl rfl, ho.nodes⟩
      · simp [Expr.bare, Mark.bare, ho.bare]
    · exact .ok ⟨rfl, List.forall_mem_singleton.mpr (hroot _ rfl rfl), rfl⟩
    · refine (read_exprList file path ms "body").bind fun body hb => .ok ⟨hb.written, ?_, ?_⟩
      · simp only [Expr.nodes, List.forall_mem_cons]
        exact ⟨hroot _ rfl rfl, hb.nodes⟩
      · simp [Expr.bare, Mark.bare, hb.bare]
    · refine (name_spelled path ms "name").bind fun target ht => ?_
      refine (read_exprField file path ms "value").bind fun value hv => .ok ⟨hv.written, ?_, ?_⟩
      · simp only [Expr.nodes, List.forall_mem_cons]
        exact ⟨hroot _ rfl rfl, hv.nodes⟩
      · simp [Expr.bare, Mark.bare, ht, hv.bare]
    · refine (read_exprField file path ms "receiver").bind fun receiver hr => ?_
      refine (name_spelled path ms "method").bind fun method hm => ?_
      refine (read_exprList file path ms "args").bind fun args ha => .ok ⟨?_, ?_, ?_⟩
      · simp [Expr.isWritten, hr.written, ha.written]
      · simp only [Expr.nodes, List.forall_mem_cons, List.forall_mem_append]
        exact ⟨hroot _ rfl rfl, hr.nodes, ha.nodes⟩
      · simp [Expr.bare, Mark.bare, hr.bare, hm, ha.bare]
    · refine (read_exprField file path ms "receiver").bind fun receiver hr => ?_
      refine (name_spelled path ms "method").bind fun method hm => ?_
      refine (read_exprList file path ms "args").bind fun args ha => ?_
      refine (name_spelled path ms "type").bind fun target ht => .ok ⟨?_, ?_, ?_⟩
      · simp [Expr.isWritten, hr.written, ha.written]
      · simp only [Expr.nodes, List.forall_mem_cons, List.forall_mem_append]
        exact ⟨hroot _ rfl rfl, hr.nodes, ha.nodes⟩
      · simp [Expr.bare, Mark.bare, hr.bare, hm, ht, ha.bare]
    · refine (read_exprField file path ms "pred").bind fun pred hp => ?_
      refine (read_exprField file path ms "then").bind fun onTrue ht => ?_
      refine (read_exprField file path ms "else").bind fun onFalse hf => .ok ⟨?_, ?_, ?_⟩
      · simp [Expr.isWritten, hp.written, ht.written, hf.written]
      · simp only [Expr.nodes, List.forall_mem_cons, List.forall_mem_append]
        exact ⟨hroot _ rfl rfl, ⟨hp.nodes, ht.nodes⟩, hf.nodes⟩
      · simp [Expr.bare, Mark.bare, hp.bare, ht.bare, hf.bare]
    · refine (read_exprField file path ms "pred").bind fun pred hp => ?_
      refine (read_exprField file path ms "body").bind fun body hb => .ok ⟨?_, ?_, ?_⟩
      · simp [Expr.isWritten, hp.written, hb.written]
      · simp only [Expr.nodes, List.forall_mem_cons, List.forall_mem_append]
        exact ⟨hroot _ rfl rfl, hp.nodes, hb.nodes⟩
      · simp [Expr.bare, Mark.bare, hp.bare, hb.bare]
    · refine (read_exprField file path ms "expr").bind fun scrutinee hs => ?_
      refine (read_branchList file path ms).bind fun branches hb => .ok ⟨?_, ?_, ?_⟩
      · simp [Expr.isWritten, hs.written, hb.written]
      · simp only [Expr.nodes, List.forall_mem_cons, List.forall_mem_append]
        exact ⟨hroot _ rfl rfl, hs.nodes, hb.nodes⟩
      · simp [Expr.bare, Mark.bare, hs.bare, hb.bare]
    · refine (name_spelled path ms "name").bind fun bound hn => ?_
      refine (name_spelled path ms "type").bind fun type ht => ?_
      refine (read_initializer file path ms place hplace).bind fun init hi => ?_
      refine (read_exprField file path ms "body").bind fun body hb => .ok ⟨?_, ?_, ?_⟩
      · simp [Expr.isWritten, hi.written, hb.written]
      · simp only [Expr.nodes, List.forall_mem_cons, List.forall_mem_append]
        exact ⟨hroot _ rfl rfl, hi.nodes, hb.nodes⟩
      · simp [Expr.bare, Mark.bare, hn, ht, hi.bare, hb.bare]
    · refine (integerToken_isDigits path ms).bind fun token ht => .ok ⟨rfl, ?_, rfl⟩
      exact List.forall_mem_singleton.mpr ⟨hplace, fun _ htoken => Option.some.inj htoken ▸ ht⟩
    · exact (Yields.any _).bind fun value _ =>
        .ok ⟨rfl, List.forall_mem_singleton.mpr (hroot _ rfl rfl), rfl⟩
    · exact (Yields.any _).bind fun value _ =>
        .ok ⟨rfl, List.forall_mem_singleton.mpr (hroot _ rfl rfl), rfl⟩
    · refine (name_spelled path ms "type").bind fun type ht => .ok ⟨rfl, ?_, ?_⟩
      · exact List.forall_mem_singleton.mpr (hroot _ rfl rfl)
      · simp [Expr.bare, Mark.bare, ht]
    · refine (name_spelled path ms "name").bind fun bound hn => .ok ⟨rfl, ?_, ?_⟩
      · exact List.forall_mem_singleton.mpr (hroot _ rfl rfl)
      · simp [Expr.bare, Mark.bare, hn]
    · exact .error _
  · exact .error _
  · exact .error _
termination_by sizeOf j

theorem read_exprField (file : String) (path : Path) (ms : Members) (key : String) :
    Yields (ReadExpr file) (exprField file path ms key) := by
  unfold exprField
  split
  · exact .error _
  · exact read_expr file _ _
termination_by sizeOf ms

theorem read_initializer (file : String) (path : Path) (ms : Members) (owner : Span)
    (howner : owner.isIn file = true) :
    Yields (ReadExpr file) (initializer file path ms owner) := by
  unfold initializer
  split
  · exact .ok ⟨rfl, List.forall_mem_singleton.mpr ⟨howner, nofun⟩, rfl⟩
  · exact read_expr file _ _
termination_by sizeOf ms

theorem read_exprList (file : String) (path : Path) (ms : Members) (key : String) :
    Yields (ReadAll file) (exprList file path ms key) := by
  unfold exprList
  refine (Yields.any _).bind fun items _ => ?_
  exact (Yields.decodeAll fun path v _ => read_expr file path v.1).weaken fun _ => .of_forall
termination_by sizeOf ms
decreasing_by exact v.2

theorem read_branchList (file : String) (path : Path) (ms : Members) :
    Yields (ReadBranches file) (branchList file path ms) := by
  unfold branchList
  refine (Yields.any _).bind fun items _ => ?_
  exact (Yields.decodeAll fun path v _ => read_branch file path v.1).weaken fun _ => .of_forall
termination_by sizeOf ms
decreasing_by exact v.2

theorem read_branch (file : String) (path : Path) (j : Json) :
    Yields (ReadBranch file) (branch file path j) := by
  unfold branch
  split
  · rename_i ms
    refine (span_isIn file path ms).bind fun place hplace => ?_
    refine (name_spelled path ms "name").bind fun bound hn => ?_
    refine (name_spelled path ms "type").bind fun type ht => ?_
    exact (read_exprField file path ms "body").bind fun body hb => .ok ⟨hplace, hn, ht, hb⟩
  · exact .error _
  · exact .error _
termination_by sizeOf j

end

/-! ## Programs -/

/-- What is known of a feature that was read. -/
structure ReadFeature (file : String) (f : Feature) : Prop where
  written : f.isWritten = true
  nodes : ∀ n ∈ f.nodes, n.IsReadable file
  bare : f.bare = f

theorem read_formal (file : String) (path : Path) (j : Json) :
    Yields (fun f => f.span.isIn file = true ∧ f.bare = f) (formal file path j) := by
  unfold formal
  refine (Yields.any _).bind fun ms _ => (span_isIn file path ms).bind fun place hplace => ?_
  refine (name_spelled path ms "name").bind fun x hx => ?_
  refine (name_spelled path ms "type").bind fun type ht => .ok ⟨hplace, ?_⟩
  simp [Formal.bare, hx, ht]

theorem read_feature (file : String) (path : Path) (j : Json) :
    Yields (ReadFeature file) (feature file path j) := by
  unfold feature
  refine (Yields.any _).bind fun ms _ => (Yields.any _).bind fun kind _ => ?_
  refine (span_isIn file path ms).bind fun place hplace => ?_
  refine (name_spelled path ms "name").bind fun member hm => ?_
  split
  · refine (name_spelled path ms "type").bind fun type ht => ?_
    refine (read_initializer file path ms place hplace).bind fun init hi => ?_
    refine .ok ⟨hi.written, List.forall_mem_cons.mpr ⟨⟨hplace, nofun⟩, hi.nodes⟩, ?_⟩
    simp [Feature.bare, hm, ht, hi.bare]
  · refine (name_spelled path ms "return").bind fun result hr => (Yields.any _).bind fun items _ => ?_
    refine (Yields.decodeAll fun path v _ => read_formal file path v.1).bind fun formals hf => ?_
    refine (read_exprField file path ms "body").bind fun body hb => .ok ⟨hb.written, ?_, ?_⟩
    · refine List.forall_mem_cons.mpr ⟨⟨hplace, nofun⟩, List.forall_mem_append.mpr ⟨?_, hb.nodes⟩⟩
      exact List.forall_mem_map.mpr fun f hmem => ⟨(hf f hmem).1, nofun⟩
    · have hformals : formals.map Formal.bare = formals :=
        (List.map_congr_left fun f hmem => (hf f hmem).2).trans (List.map_id _)
      simp [Feature.bare, hm, hr, hformals, hb.bare]
  · exact .error _

/-- What is known of a class that was read. -/
structure ReadClass (file : String) (c : ClassDecl) : Prop where
  written : ∀ f ∈ c.features, f.isWritten = true
  nodes : ∀ n ∈ c.nodes, n.IsReadable file
  parent : c.parent ≠ .named ""
  bare : c.bare = c

theorem read_classDecl (file : String) (path : Path) (j : Json) :
    Yields (ReadClass file) (classDecl file path j) := by
  unfold classDecl
  refine (Yields.any _).bind fun ms _ => (span_isIn file path ms).bind fun place hplace => ?_
  refine (name_spelled path ms "name").bind fun className hc => ?_
  refine (Yields.any _).bind fun parent _ => (Yields.any _).bind fun items _ => ?_
  refine (Yields.decodeAll fun path v _ => read_feature file path v.1).bind fun fs hfs => ?_
  refine .ok ⟨fun f hf => (hfs f hf).written, ?_, ?_, ?_⟩
  · refine List.forall_mem_cons.mpr ⟨⟨hplace, nofun⟩, ?_⟩
    exact List.forall_mem_flatMap.mpr fun f hf => (hfs f hf).nodes
  · dsimp only
    split
    · nofun
    · rename_i hne
      exact fun heq => hne (Name.named.inj heq)
  · have hfeatures : fs.map Feature.bare = fs :=
      (List.map_congr_left fun f hmem => (hfs f hmem).bare).trans (List.map_id _)
    simp [ClassDecl.bare, hc, hfeatures]

/-- Every program read from a document is readable, and there is nothing in it that a document
does not tell. -/
theorem read_decode {text fallback : String} {p : Program} (hp : decode text fallback = .ok p) :
    p.IsReadable ∧ p.bare = p := by
  unfold decode at hp
  cases hj : Json.read text with
  | none =>
      rw [hj] at hp
      cases hp
  | some j =>
      rw [hj] at hp
      have hread : Yields (fun p => p.IsReadable ∧ p.bare = p) (program fallback j) := by
        refine (Yields.any _).bind fun root _ => ?_
        refine (Yields.decodeAll fun path v _ => read_classDecl _ path v).bind fun cs hcs => ?_
        refine .ok ⟨⟨rfl, ?_, fun c hc => (hcs c hc).written, fun c hc => (hcs c hc).parent⟩, ?_⟩
        · refine List.forall_mem_cons.mpr ⟨⟨by simp [Node.span, Span.isIn], nofun⟩, ?_⟩
          exact List.forall_mem_flatMap.mpr fun c hc => (hcs c hc).nodes
        · have hclasses : cs.map ClassDecl.bare = cs :=
            (List.map_congr_left fun c hc => (hcs c hc).bare).trans (List.map_id _)
          simp [Program.bare, hclasses]
      exact hread p hp

/-- Every feature of a program read from a document is written out. -/
theorem written_decode {text fallback : String} {p : Program} (hp : decode text fallback = .ok p) :
    ∀ c ∈ p.classes, ∀ f ∈ c.features, f.isWritten = true :=
  (read_decode hp).1.written

end Cool.Document
