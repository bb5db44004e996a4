import Cool.Proofs.Document.Rendering
import Cool.Proofs.Document.Written
import Mathlib.Data.List.Nodup

/-! Reading undoes rendering. Every value that describes a readable program is read as that program,
and every program that is read is readable. -/

namespace Cool.Document

/-! ## Lines -/

theorem toDigits_all (n : Nat) : (Nat.toDigits 10 n).all Char.isDigit = true :=
  List.all_eq_true.mpr fun _ hc => Nat.isDigit_of_mem_toDigits (by decide) (by decide) hc

theorem foldl_toDigits (n : Nat) :
    (Nat.toDigits 10 n).foldl (fun (n : Nat) c => n * 10 + (c.toNat - 48)) 0 = n := by
  simp only [Nat.mul_comm _ 10]
  exact Nat.ofDigitChars_toDigits (by decide) (by decide)

/-- How digits after a sign are read. -/
theorem wholeNumber_signed {s : String} {negative : Bool} {n : Nat}
    (hs : s.toList = (if negative then ['-'] else []) ++ Nat.toDigits 10 n) :
    wholeNumber s =
      let i : Int := if negative then -(n : Int) else n
      if -0x8000000000000000 ≤ i ∧ i < 0x8000000000000000 then some i else none := by
  unfold wholeNumber
  rw [hs]
  cases negative with
  | true =>
    simp [toDigits_all, foldl_toDigits]
  | false =>
    have hall := toDigits_all n
    have hfold := foldl_toDigits n
    rw [if_neg Bool.false_ne_true, List.nil_append]
    cases hn : Nat.toDigits 10 n with
    | nil =>
      rw [hn] at hfold
      subst hfold
      rfl
    | cons c cs =>
      rw [hn] at hall hfold
      have hc : c ≠ '-' := by
        rintro rfl
        cases hall
      simp [hc, hfold, hall]

/-- A number of 64 bits is read as it was written. -/
theorem wholeNumber_toString {i : Int} (hlow : -0x8000000000000000 ≤ i)
    (hhigh : i < 0x8000000000000000) :
    wholeNumber (toString i) = some i := by
  by_cases hi : 0 ≤ i
  · have hs : (toString i).toList =
        (if false = true then ['-'] else []) ++ Nat.toDigits 10 i.toNat := by
      rw [Int.toString_eq_repr, Int.repr_eq_if, if_pos hi, Nat.toList_repr]
      rfl
    rw [wholeNumber_signed hs]
    simp only [Bool.false_eq_true, if_false, Int.toNat_of_nonneg hi]
    exact if_pos ⟨hlow, hhigh⟩
  · have hs : (toString i).toList =
        (if true = true then ['-'] else []) ++ Nat.toDigits 10 (-i).toNat := by
      rw [Int.toString_eq_repr, Int.repr_eq_if, if_neg hi, String.toList_append, Nat.toList_repr]
      rfl
    rw [wholeNumber_signed hs]
    simp only [if_true, Int.toNat_of_nonneg (show 0 ≤ -i by omega), Int.neg_neg]
    exact if_pos ⟨hlow, hhigh⟩

/-! ## Members -/

theorem find?_isSome {ms : Members} {k : String} {v : Json} (hmem : (k, v) ∈ ms) :
    (Json.find? k ms).isSome = true := by
  induction ms with
  | nil => cases hmem
  | cons m ms ih =>
      rw [Json.find?]
      rcases List.mem_cons.mp hmem with rfl | hrest
      · split
        · rfl
        · simp
      · obtain ⟨w, hw⟩ := Option.isSome_iff_exists.mp (ih hrest)
        simp [hw]

/-- What the keys of a node are looked up as. -/
structure Reads (optional : List String) (members ms : Members) : Prop where
  field : ∀ m ∈ members, m.2 ≠ .null → Json.field? m.1 ms = some m.2
  absent : ∀ k ∈ optional, k ∉ members.map (·.1) → Json.field? k ms = none

theorem IsNode.reads {optional : List String} {members : Members} {j : Json}
    (hj : IsNode optional members j) (hkeys : (members.map (·.1)).Nodup) :
    ∃ text ms, j = .object text ms ∧ Reads optional members ms := by
  obtain ⟨text, ms, rfl, hms⟩ := hj
  refine ⟨text, ms, rfl, ?_, ?_⟩
  · rintro ⟨k, v⟩ hm hnull
    have hknown : k ∈ members.map (·.1) ++ optional :=
      List.mem_append_left _ (List.mem_map_of_mem (f := Prod.fst) hm)
    obtain ⟨w, hw⟩ := Option.isSome_iff_exists.mp (find?_isSome ((hms (k, v) hknown).mpr hm))
    have hmem : (k, w) ∈ members := (hms (k, w) hknown).mp (Json.find?_mem hw)
    cases List.inj_on_of_nodup_map hkeys hmem hm rfl
    rw [Json.field?, hw]
    split
    · simp_all
    · rfl
  · intro k hk hnot
    have hnone : Json.find? k ms = none := by
      refine Option.eq_none_iff_forall_ne_some.mpr fun w hw => hnot ?_
      have hmem := (hms (k, w) (List.mem_append_right _ hk)).mp (Json.find?_mem hw)
      exact List.mem_map_of_mem (f := Prod.fst) hmem
    rw [Json.field?, hnone]

theorem IsNode.ne_null {optional : List String} {members : Members} {j : Json}
    (hj : IsNode optional members j) : j ≠ .null := by
  obtain ⟨text, ms, rfl, -⟩ := hj
  nofun

theorem RendersExpr.ne_null {e : Expr} {j : Json} (hj : RendersExpr e j) : j ≠ .null := by
  cases hj <;> exact IsNode.ne_null ‹_›

/-- The keys of the member that gives an initializer. -/
theorem RendersInitializer.keys {owner : Span} {init : Expr} {given : Members}
    (hinit : RendersInitializer owner init given) :
    given.map (·.1) = ["init"] ∨ given.map (·.1) = [] := by
  cases hinit with
  | given _ => exact .inl rfl
  | dropped _ => exact .inr rfl

theorem child?_eq_some {ms : Members} {key : String} {v : Json}
    (hv : Json.field? key ms = some v) :
    child? ms key = some ⟨v, Json.sizeOf_lt_of_field? hv⟩ := by
  unfold child?
  split
  · rename_i w hw
    cases hv.symm.trans hw
    rfl
  · rename_i hnone
    cases hv.symm.trans hnone

theorem child?_eq_none {ms : Members} {key : String} (hnone : Json.field? key ms = none) :
    child? ms key = none := by
  unfold child?
  split
  · rename_i w hw
    cases hnone.symm.trans hw
  · rfl

theorem decodeAll_map {α β γ : Type} (path : Path) (decode : Path → β → Except Error γ)
    (f : α → β) (i : Nat) (as : List α) :
    decodeAll path (fun path a => decode path (f a)) i as = decodeAll path decode i (as.map f) := by
  induction as generalizing i with
  | nil => rfl
  | cons a as ih =>
      rw [decodeAll, List.map_cons, decodeAll, ih]

theorem decodeAll_eq_ok {α β γ : Type} {R : α → β → Prop} (path : Path)
    {decode : Path → β → Except Error γ} {f : α → γ} {as : List α} {bs : List β}
    (hbs : List.Forall₂ R as bs) (i : Nat)
    (hdecode : ∀ path, ∀ a ∈ as, ∀ b, R a b → decode path b = .ok (f a)) :
    decodeAll path decode i bs = .ok (as.map f) := by
  induction hbs generalizing i with
  | nil => rfl
  | cons hb _ ih =>
      obtain ⟨ha, hrest⟩ := List.forall_mem_cons.mp fun a ha path => hdecode path a ha
      rw [decodeAll, ha _ _ hb, ih (i + 1) fun path a hmem => hrest a hmem path]
      rfl

namespace Reads

variable {optional : List String} {members ms : Members} (hms : Reads optional members ms)

include hms

theorem tail {m : String × Json} {rest : Members} (hmembers : members = m :: rest)
    (hnot : m.1 ∉ optional) : Reads optional rest ms := by
  subst hmembers
  refine ⟨fun m' hm' => hms.field m' (List.mem_cons_of_mem _ hm'), fun k hk hkeys => ?_⟩
  refine hms.absent k hk ?_
  rw [List.map_cons, List.mem_cons, not_or]
  exact ⟨fun heq => hnot (heq ▸ hk), hkeys⟩

theorem text (k : String) {s : String} (hk : (k, .string s) ∈ members) (path : Path) :
    Document.text path ms k = .ok s := by
  unfold Document.text
  rw [hms.field _ hk nofun]

theorem name (k : String) {x : Name} (hk : nameMember k x ∈ members) (path : Path) :
    Document.name path ms k = .ok x.spelled := by
  unfold Document.name
  rw [hms.text k hk]
  rfl

theorem span {file : String} {s : Span} (hs : s.isIn file = true)
    (hk : ("line", .number (toString s.line)) ∈ members) (path : Path) :
    Document.span file path ms = .ok s := by
  obtain ⟨rfl, hlow, hhigh⟩ := of_decide_eq_true hs
  unfold Document.span
  rw [hms.field _ hk nofun]
  dsimp only
  rw [wholeNumber_toString hlow hhigh]

theorem children (k : String) {text : String} {items : List Json}
    (hk : (k, .array text items) ∈ members) (path : Path) :
    ∃ vs, Document.children path ms k = .ok vs ∧ vs.map (·.1) = items := by
  unfold Document.children
  rw [child?_eq_some (hms.field _ hk nofun)]
  refine ⟨_, rfl, ?_⟩
  rw [List.map_map]
  exact List.attach_map_subtype_val items

theorem exprField (k : String) {file : String} {v : Json} {e e' : Expr} (hv : RendersExpr e v)
    (hk : (k, v) ∈ members) (he : ∀ path, expr file path v = .ok e') (path : Path) :
    Document.exprField file path ms k = .ok e' := by
  rw [Document.exprField, child?_eq_some (hms.field _ hk hv.ne_null)]
  exact he _

theorem exprList (k : String) {file text : String} {items : List Json} {es : List Expr}
    (hk : (k, .array text items) ∈ members)
    (hes : ∀ path i, decodeAll path (expr file) i items = .ok es) (path : Path) :
    Document.exprList file path ms k = .ok es := by
  obtain ⟨vs, hvs, hitems⟩ := hms.children k hk path
  rw [Document.exprList, hvs]
  refine (decodeAll_map _ (expr file) (fun v => v.1) 0 vs).trans ?_
  rw [hitems]
  exact hes _ _

theorem branchList {file text : String} {items : List Json} {bs : List Branch}
    (hk : ("branches", .array text items) ∈ members)
    (hbs : ∀ path i, decodeAll path (branch file) i items = .ok bs) (path : Path) :
    Document.branchList file path ms = .ok bs := by
  obtain ⟨vs, hvs, hitems⟩ := hms.children "branches" hk path
  rw [Document.branchList, hvs]
  refine (decodeAll_map _ (branch file) (fun v => v.1) 0 vs).trans ?_
  rw [hitems]
  exact hbs _ _

end Reads

/-- Reading the place of a node. -/
theorem IsNode.placed {optional : List String} {members : Members} {s : Span} {j : Json}
    (hj : IsNode optional (placed s members) j) {file : String} (hs : s.isIn file = true)
    (hkeys : ("line" :: members.map (·.1)).Nodup) (hoptional : "line" ∉ optional) :
    ∃ text ms, j = .object text ms ∧ (∀ path, span file path ms = .ok s) ∧
      Reads optional members ms := by
  obtain ⟨text, ms, rfl, hms⟩ := hj.reads hkeys
  exact ⟨text, ms, rfl, hms.span hs List.mem_cons_self, hms.tail rfl hoptional⟩

/-- Reading the kind and the place of a node. -/
theorem IsNode.tagged {optional : List String} {members : Members} {kind : String} {s : Span}
    {j : Json} (hj : IsNode optional (tagged kind s members) j) {file : String}
    (hs : s.isIn file = true) (hkeys : ("kind" :: "line" :: members.map (·.1)).Nodup)
    (hoptional : "kind" ∉ optional ∧ "line" ∉ optional) :
    ∃ text ms, j = .object text ms ∧ (∀ path, Document.text path ms "kind" = .ok kind) ∧
      (∀ path, span file path ms = .ok s) ∧ Reads optional members ms := by
  obtain ⟨text, ms, rfl, hms⟩ := hj.reads hkeys
  have hplaced := hms.tail rfl hoptional.1
  exact ⟨text, ms, rfl, hms.text "kind" List.mem_cons_self,
    hplaced.span hs List.mem_cons_self, hplaced.tail rfl hoptional.2⟩

/-! ## Expressions -/

theorem expr_binary {file text tag : String} {path : Path} {ms : Members} {s : Span} {op : BinaryOp}
    (htag : op.tag? = some tag) (hkind : Document.text path ms "kind" = .ok tag)
    (hspan : span file path ms = .ok s) :
    expr file path (.object text ms) = (do
      let left ← exprField file path ms "left"
      let right ← exprField file path ms "right"
      return .binary ⟨s, .anonymous⟩ op left right) := by
  rw [expr, hkind, hspan]
  cases op <;> cases htag <;> rfl

theorem expr_unary {file text tag : String} {path : Path} {ms : Members} {s : Span} {op : UnaryOp}
    (htag : op.tag? = some tag) (hkind : Document.text path ms "kind" = .ok tag)
    (hspan : span file path ms = .ok s) :
    expr file path (.object text ms) = (do
      let operand ← exprField file path ms "expr"
      return .unary ⟨s, .anonymous⟩ op operand) := by
  rw [expr, hkind, hspan]
  cases op <;> cases htag <;> rfl

theorem expr_letIn {file text : String} {path : Path} {ms : Members} {s : Span}
    (hkind : Document.text path ms "kind" = .ok "let") (hspan : span file path ms = .ok s) :
    expr file path (.object text ms) = (do
      let bound ← name path ms "name"
      let type ← name path ms "type"
      let init ← initializer file path ms s
      let body ← exprField file path ms "body"
      return .letIn ⟨s, .anonymous⟩ bound type init body) := by
  rw [expr, hkind, hspan]
  rfl

/-- The token of an integer literal, however it is given. -/
theorem integerToken_eq_ok {path : Path} {ms : Members} {v : Json} {token : String}
    (hv : Json.field? "value" ms = some v) (hspelling : v.spelling = token)
    (htoken : isDigits token = true) : integerToken path ms = .ok token := by
  obtain ⟨hne, hall⟩ := Bool.and_eq_true_iff.mp htoken
  unfold integerToken
  rw [hv]
  dsimp only
  rw [hspelling, if_neg (of_decide_eq_true hne), if_pos hall]

mutual

/-- A value that describes a readable expression is read as that expression. -/
theorem expr_rendered {file : String} : ∀ {e : Expr} {j : Json}, RendersExpr e j →
    (∀ n ∈ e.nodes, n.IsReadable file) → ∀ path, expr file path j = .ok e.bare
  | .noExpr m, _, .noExpr hj, he, path => by
      have hm := (List.forall_mem_singleton.mp he).span
      obtain ⟨_, ms, rfl, hkind, hspan, -⟩ := hj.tagged hm (by simp) (by simp)
      rw [expr, hkind, hspan]
      rfl
  | .block m body, _, .block hbody hj, he, path => by
      obtain ⟨hm, hnodes⟩ := List.forall_mem_cons.mp he
      obtain ⟨_, ms, rfl, hkind, hspan, hms⟩ := hj.tagged hm.span (by simp) (by simp)
      rw [expr, hkind, hspan, hms.exprList "body" (.head _) (all_rendered hbody hnodes)]
      rfl
  | .assign m x value, _, .assign hvalue hj, he, path => by
      obtain ⟨hm, hnodes⟩ := List.forall_mem_cons.mp he
      obtain ⟨_, ms, rfl, hkind, hspan, hms⟩ :=
        hj.tagged hm.span (by simp [nameMember]) (by simp)
      rw [expr, hkind, hspan, hms.name "name" (.head _),
        hms.exprField "value" hvalue (.tail _ (.head _)) (expr_rendered hvalue hnodes)]
      rfl
  | .dispatch m receiver method args, _, .dispatch hreceiver hargs hj, he, path => by
      simp only [Expr.nodes, List.forall_mem_cons, List.forall_mem_append] at he
      obtain ⟨hm, hr, ha⟩ := he
      obtain ⟨_, ms, rfl, hkind, hspan, hms⟩ :=
        hj.tagged hm.span (by simp [nameMember]) (by simp)
      rw [expr, hkind, hspan,
        hms.exprField "receiver" hreceiver (.head _) (expr_rendered hreceiver hr),
        hms.name "method" (.tail _ (.head _)),
        hms.exprList "args" (.tail _ (.tail _ (.head _))) (all_rendered hargs ha)]
      rfl
  | .staticDispatch m receiver target method args, _, .staticDispatch hreceiver hargs hj, he,
      path => by
      simp only [Expr.nodes, List.forall_mem_cons, List.forall_mem_append] at he
      obtain ⟨hm, hr, ha⟩ := he
      obtain ⟨_, ms, rfl, hkind, hspan, hms⟩ :=
        hj.tagged hm.span (by simp [nameMember]) (by simp)
      rw [expr, hkind, hspan,
        hms.exprField "receiver" hreceiver (.head _) (expr_rendered hreceiver hr),
        hms.name "method" (.tail _ (.tail _ (.head _))),
        hms.exprList "args" (.tail _ (.tail _ (.tail _ (.head _)))) (all_rendered hargs ha),
        hms.name "type" (.tail _ (.head _))]
      rfl
  | .cond m pred onTrue onFalse, _, .cond hpred htrue hfalse hj, he, path => by
      simp only [Expr.nodes, List.forall_mem_cons, List.forall_mem_append] at he
      obtain ⟨hm, ⟨hp, ht⟩, hf⟩ := he
      obtain ⟨_, ms, rfl, hkind, hspan, hms⟩ := hj.tagged hm.span (by simp) (by simp)
      rw [expr, hkind, hspan, hms.exprField "pred" hpred (.head _) (expr_rendered hpred hp),
        hms.exprField "then" htrue (.tail _ (.head _)) (expr_rendered htrue ht),
        hms.exprField "else" hfalse (.tail _ (.tail _ (.head _))) (expr_rendered hfalse hf)]
      rfl
  | .loop m pred body, _, .loop hpred hbody hj, he, path => by
      simp only [Expr.nodes, List.forall_mem_cons, List.forall_mem_append] at he
      obtain ⟨hm, hp, hb⟩ := he
      obtain ⟨_, ms, rfl, hkind, hspan, hms⟩ := hj.tagged hm.span (by simp) (by simp)
      rw [expr, hkind, hspan, hms.exprField "pred" hpred (.head _) (expr_rendered hpred hp),
        hms.exprField "body" hbody (.tail _ (.head _)) (expr_rendered hbody hb)]
      rfl
  | .caseOf m scrutinee branches, _, .caseOf hscrutinee hbranches hj, he, path => by
      simp only [Expr.nodes, List.forall_mem_cons, List.forall_mem_append] at he
      obtain ⟨hm, hs, hb⟩ := he
      obtain ⟨_, ms, rfl, hkind, hspan, hms⟩ := hj.tagged hm.span (by simp) (by simp)
      rw [expr, hkind, hspan,
        hms.exprField "expr" hscrutinee (.head _) (expr_rendered hscrutinee hs),
        hms.branchList (.tail _ (.head _)) (branches_rendered hbranches hb)]
      rfl
  | .letIn m x type init body, _, .letIn hinit hbody hj, he, path => by
      simp only [Expr.nodes, List.forall_mem_cons, List.forall_mem_append] at he
      obtain ⟨hm, hi, hb⟩ := he
      obtain ⟨_, ms, rfl, hkind, hspan, hms⟩ := hj.tagged hm.span
        (by rcases hinit.keys with hkeys | hkeys <;> simp [nameMember, hkeys]) (by simp)
      rw [expr_letIn (hkind path) (hspan path), hms.name "name" (.head _),
        hms.name "type" (.tail _ (.head _)),
        hms.exprField "body" hbody (.tail _ (.tail _ (.head _))) (expr_rendered hbody hb),
        initializer_rendered hinit hm.span hi [_, _, _] (by simp [nameMember]) hms path]
      rfl
  | .binary m op left right, _, .binary htag hleft hright hj, he, path => by
      simp only [Expr.nodes, List.forall_mem_cons, List.forall_mem_append] at he
      obtain ⟨hm, hl, hr⟩ := he
      obtain ⟨_, ms, rfl, hkind, hspan, hms⟩ := hj.tagged hm.span (by simp) (by simp)
      rw [expr_binary htag (hkind path) (hspan path),
        hms.exprField "left" hleft (.head _) (expr_rendered hleft hl),
        hms.exprField "right" hright (.tail _ (.head _)) (expr_rendered hright hr)]
      rfl
  | .unary m op operand, _, .unary htag hoperand hj, he, path => by
      obtain ⟨hm, ho⟩ := List.forall_mem_cons.mp he
      obtain ⟨_, ms, rfl, hkind, hspan, hms⟩ := hj.tagged hm.span (by simp) (by simp)
      rw [expr_unary htag (hkind path) (hspan path),
        hms.exprField "expr" hoperand (.head _) (expr_rendered hoperand ho)]
      rfl
  | .int m token, _, .intText hj, he, path => by
      have hm := List.forall_mem_singleton.mp he
      obtain ⟨_, ms, rfl, hkind, hspan, hms⟩ := hj.tagged hm.span (by simp) (by simp)
      rw [expr, hkind, hspan,
        integerToken_eq_ok (hms.field _ List.mem_cons_self nofun) rfl (hm.token token rfl)]
      rfl
  | .int m token, _, .intNumber hj, he, path => by
      have hm := List.forall_mem_singleton.mp he
      obtain ⟨_, ms, rfl, hkind, hspan, hms⟩ := hj.tagged hm.span (by simp) (by simp)
      rw [expr, hkind, hspan,
        integerToken_eq_ok (hms.field _ List.mem_cons_self nofun) rfl (hm.token token rfl)]
      rfl
  | .string m value, _, .string hj, he, path => by
      have hm := List.forall_mem_singleton.mp he
      obtain ⟨_, ms, rfl, hkind, hspan, hms⟩ := hj.tagged hm.span (by simp) (by simp)
      rw [expr, hkind, hspan, hms.text "value" (.head _)]
      rfl
  | .bool m value, _, .bool hj, he, path => by
      have hm := List.forall_mem_singleton.mp he
      obtain ⟨_, ms, rfl, hkind, hspan, hms⟩ := hj.tagged hm.span (by simp) (by simp)
      rw [expr, hkind, hspan, boolean, hms.field _ List.mem_cons_self nofun]
      rfl
  | .new m type, _, .new hj, he, path => by
      have hm := List.forall_mem_singleton.mp he
      obtain ⟨_, ms, rfl, hkind, hspan, hms⟩ :=
        hj.tagged hm.span (by simp [nameMember]) (by simp)
      rw [expr, hkind, hspan, hms.name "type" (.head _)]
      rfl
  | .object m x, _, .object hj, he, path => by
      have hm := List.forall_mem_singleton.mp he
      obtain ⟨_, ms, rfl, hkind, hspan, hms⟩ :=
        hj.tagged hm.span (by simp [nameMember]) (by simp)
      rw [expr, hkind, hspan, hms.name "name" (.head _)]
      rfl

theorem all_rendered {file : String} : ∀ {es : List Expr} {items : List Json},
    RendersAll es items → (∀ n ∈ Expr.nodesAll es, n.IsReadable file) →
    ∀ path i, decodeAll path (expr file) i items = .ok (Expr.bareAll es)
  | _, _, .nil, _, _, _ => rfl
  | _, _, .cons he hes, hnodes, path, i => by
      rw [Expr.nodesAll, List.forall_mem_append] at hnodes
      rw [decodeAll, expr_rendered he hnodes.1, all_rendered hes hnodes.2]
      rfl

theorem branches_rendered {file : String} : ∀ {bs : List Branch} {items : List Json},
    RendersBranches bs items → (∀ n ∈ Branch.nodesAll bs, n.IsReadable file) →
    ∀ path i, decodeAll path (branch file) i items = .ok (Branch.bareAll bs)
  | _, _, .nil, _, _, _ => rfl
  | _, _, .cons hbody hj hbs, hnodes, path, i => by
      rw [Branch.nodesAll, List.forall_mem_cons, List.forall_mem_append] at hnodes
      obtain ⟨hb, hnodes, hrest⟩ := hnodes
      obtain ⟨_, ms, rfl, hspan, hms⟩ := hj.placed hb.span (by simp [nameMember]) (by simp)
      rw [decodeAll, branch, hspan, hms.name "name" (.head _), hms.name "type" (.tail _ (.head _)),
        hms.exprField "body" hbody (.tail _ (.tail _ (.head _))) (expr_rendered hbody hnodes),
        branches_rendered hbs hrest]
      rfl

theorem initializer_rendered {file : String} : ∀ {owner : Span} {init : Expr} {given : Members},
    RendersInitializer owner init given → owner.isIn file = true →
    (∀ n ∈ init.nodes, n.IsReadable file) → ∀ (before : Members) {ms : Members},
    "init" ∉ before.map (·.1) → Reads ["init"] (before ++ given) ms →
    ∀ path, initializer file path ms owner = .ok init.bare
  | _, _, _, .given hinit, _, hnodes, before, _, _, hms, path => by
      have hfield := hms.field _ (List.mem_append_right before (.head _)) hinit.ne_null
      rw [initializer, child?_eq_some hfield]
      exact expr_rendered hinit hnodes _
  | ⟨_, _⟩, .noExpr ⟨⟨_, _⟩, _⟩, _, .dropped hline, howner, hnodes, _, _, hbefore, hms, path => by
      rw [initializer, child?_eq_none (hms.absent "init" (.head _) (by simpa using hbefore))]
      -- both places are in the one file
      obtain ⟨rfl, -⟩ := of_decide_eq_true howner
      obtain ⟨hfile, -⟩ := of_decide_eq_true (List.forall_mem_singleton.mp hnodes).span
      cases hline
      cases hfile
      rfl

end

/-! ## Programs -/

theorem ok_bind {α β : Type} (a : α) (f : α → Except Error β) : (Except.ok a >>= f) = f a :=
  rfl

/-- The elements of a list in a node are read one by one. -/
theorem Reads.decodeAll_children {optional : List String} {members ms : Members}
    (hms : Reads optional members ms) {α γ : Type} {R : α → Json → Prop}
    {decode : Path → Json → Except Error γ} {f : α → γ} {as : List α} (k : String) {text : String}
    {items : List Json} (hk : (k, .array text items) ∈ members) (has : List.Forall₂ R as items)
    (hdecode : ∀ path, ∀ a ∈ as, ∀ j, R a j → decode path j = .ok (f a)) (path : Path) :
    ∃ vs, Document.children path ms k = .ok vs ∧
      ∀ path, decodeAll path (fun path v => decode path v.1) 0 vs = .ok (as.map f) := by
  obtain ⟨vs, hvs, rfl⟩ := hms.children k hk path
  refine ⟨vs, hvs, fun path => ?_⟩
  exact (decodeAll_map path decode (fun v => v.1) 0 vs).trans (decodeAll_eq_ok path has 0 hdecode)

theorem formal_rendered {file : String} {f : Formal} {j : Json} (hj : RendersFormal f j)
    (hf : f.span.isIn file = true) (path : Path) : formal file path j = .ok f.bare := by
  obtain ⟨_, ms, rfl, hspan, hms⟩ := hj.placed hf (by simp [nameMember]) (by simp)
  have hname := hms.name "name" (.head _) path
  have htype := hms.name "type" (.tail _ (.head _)) path
  simp only [formal, asObject, ok_bind, hspan, hname, htype]
  rfl

theorem feature_rendered {file : String} {f : Feature} {j : Json} (hj : RendersFeature f j)
    (hf : ∀ n ∈ f.nodes, n.IsReadable file) (path : Path) :
    feature file path j = .ok f.bare := by
  cases hj with
  | @method m text items b _ hformals hbody hj =>
      simp only [Feature.nodes, List.forall_mem_cons, List.forall_mem_append,
        List.forall_mem_map] at hf
      obtain ⟨hm, hparams, hnodes⟩ := hf
      obtain ⟨_, ms, rfl, hkind, hspan, hms⟩ :=
        hj.tagged hm.span (by simp [nameMember]) (by simp)
      obtain ⟨vs, hvs, hdecoded⟩ := hms.decodeAll_children "formals" (.tail _ (.tail _ (.head _)))
        hformals (fun path f hmem _ hj => formal_rendered hj (hparams f hmem).span path) path
      have hname := hms.name "name" (.head _) path
      have hresult := hms.name "return" (.tail _ (.head _)) path
      have hexpr := hms.exprField "body" hbody (.tail _ (.tail _ (.tail _ (.head _))))
        (expr_rendered hbody hnodes) path
      simp only [feature, asObject, ok_bind, hkind, hspan, hname, hresult, hvs, hdecoded,
        hexpr]
      rfl
  | @attr a given _ hinit hj =>
      obtain ⟨ha, hnodes⟩ := List.forall_mem_cons.mp hf
      obtain ⟨_, ms, rfl, hkind, hspan, hms⟩ := hj.tagged ha.span
        (by rcases hinit.keys with hkeys | hkeys <;> simp [nameMember, hkeys]) (by simp)
      have hname := hms.name "name" (.head _) path
      have htype := hms.name "type" (.tail _ (.head _)) path
      have hexpr := initializer_rendered hinit ha.span hnodes [_, _] (by simp [nameMember]) hms path
      simp only [feature, asObject, ok_bind, hkind, hspan, hname, htype, hexpr]
      rfl

/-- The text of a parent that is named is not empty, and one that is not named is left out. -/
theorem parent_rendered {optional : List String} (before : Members) {ms : Members} {parent : Name}
    (hms : Reads ("parent" :: optional) (before ++ parentMember parent) ms)
    (hbefore : "parent" ∉ before.map (·.1)) (hparent : parent ≠ .named "") (path : Path) :
    ∃ s, optionalText path ms "parent" = .ok s ∧
      (if s = "" then Name.anonymous else .named s) = parent := by
  unfold optionalText
  cases parent with
  | anonymous =>
      rw [hms.absent "parent" (.head _) (by simpa [parentMember] using hbefore)]
      exact ⟨"", rfl, rfl⟩
  | named s =>
      rw [hms.field ("parent", .string s) (List.mem_append_right before (.head _)) nofun]
      exact ⟨s, rfl, if_neg fun heq => hparent (congrArg Name.named heq)⟩

theorem classDecl_rendered {file : String} {c : ClassDecl} {j : Json} (hj : RendersClass c j)
    (hc : ∀ n ∈ c.nodes, n.IsReadable file) (hparent : c.parent ≠ .named "") (path : Path) :
    classDecl file path j = .ok c.bare := by
  obtain ⟨text, items, hfeatures, hj⟩ := hj
  simp only [ClassDecl.nodes, List.forall_mem_cons, List.forall_mem_flatMap] at hc
  obtain ⟨hplace, hnodes⟩ := hc
  have hkeys : ("line" :: "name" :: "features" :: (parentMember c.parent).map (·.1)).Nodup := by
    cases c.parent <;> simp [parentMember, nameMember]
  obtain ⟨_, ms, rfl, hspan, hms⟩ := hj.placed hplace.span hkeys (by simp)
  obtain ⟨vs, hvs, hdecoded⟩ := hms.decodeAll_children "features" (.tail _ (.head _)) hfeatures
    (fun path f hmem _ hj => feature_rendered hj (hnodes f hmem) path) path
  obtain ⟨s, hs, hsame⟩ := parent_rendered [_, _] hms (by simp [nameMember]) hparent path
  have hname := hms.name "name" (.head _) path
  simp only [classDecl, asObject, ok_bind, hspan, hname, hs, hvs, hdecoded, hsame]
  rfl

theorem isRootKey_filename : isRootKey "filename" = true := by
  decide

theorem isRootKey_classes : isRootKey "classes" = true := by
  decide

theorem take_filename (r : Root) (file : String) :
    r.take "filename" (.string file) = .ok { r with file := file } := by
  unfold Root.take
  rw [if_pos (by decide)]

theorem take_classes (r : Root) (text : String) (items : List Json) :
    r.take "classes" (.array text items) = .ok { r with classes := items } := by
  unfold Root.take
  rw [if_neg (by decide), if_pos (by decide)]

theorem take_of_not_isRootKey (r : Root) {key : String} (hkey : isRootKey key = false) (v : Json) :
    r.take key v = .ok r := by
  obtain ⟨hfile, hclasses⟩ := Bool.or_eq_false_iff.mp hkey
  unfold Root.take
  rw [if_neg (by simp [hfile]), if_neg (by simp [hclasses])]

/-- Members of the root that are read give the file and the classes, whatever stands between
them. -/
theorem foldlM_take {file text : String} {items : List Json} {ms : Members} {r : Root}
    (hms : ∀ m ∈ ms, isRootKey m.1 = true →
      m = ("filename", .string file) ∨ m = ("classes", .array text items))
    (hfile : r.file = file ∨ ("filename", .string file) ∈ ms)
    (hclasses : r.classes = items ∨ ("classes", .array text items) ∈ ms) :
    ms.foldlM (fun root (m : String × Json) => root.take m.1 m.2) r = .ok ⟨file, items⟩ := by
  induction ms generalizing r with
  | nil =>
      simp only [List.not_mem_nil, or_false] at hfile hclasses
      subst hfile hclasses
      rfl
  | cons m ms ih =>
      obtain ⟨hm, hrest⟩ := List.forall_mem_cons.mp hms
      rw [List.foldlM_cons]
      cases hkey : isRootKey m.1 with
      | true =>
          rcases hm hkey with rfl | rfl
          · rw [take_filename]
            exact ih hrest (.inl rfl) (hclasses.imp id fun hmem => by simpa using hmem)
          · rw [take_classes]
            exact ih hrest (hfile.imp id fun hmem => by simpa using hmem) (.inl rfl)
      | false =>
          have hne : ∀ {m' : String × Json}, isRootKey m'.1 = true → m' ∈ m :: ms → m' ∈ ms := by
            intro m' hkey' hmem
            refine (List.mem_cons.mp hmem).resolve_left fun heq => ?_
            rw [heq, hkey] at hkey'
            cases hkey'
          rw [take_of_not_isRootKey r hkey]
          exact ih hrest (hfile.imp id (hne isRootKey_filename))
            (hclasses.imp id (hne isRootKey_classes))

/-- A value that describes a readable program is read as that program. -/
theorem program_rendered {p : Program} {j : Json} (hp : p.IsReadable) (hj : RendersProgram p j) :
    program "" j = .ok p.bare := by
  obtain ⟨text, ms, itemsText, items, hclasses, rfl, hms⟩ := hj
  have hroot : root (.object text ms) = .ok ⟨p.span.file, items⟩ := by
    have hfile := (hms ("filename", _) isRootKey_filename).mpr (.head _)
    have hitems := (hms ("classes", _) isRootKey_classes).mpr (.tail _ (.head _))
    exact foldlM_take (fun m hm hkey => by simpa using (hms m hkey).mp hm) (.inr hfile)
      (.inr hitems)
  have hnodes := (List.forall_mem_cons.mp hp.nodes).2
  have hdecoded := decodeAll_eq_ok [.key "classes"] hclasses 0 fun path c hc _ hj =>
    classDecl_rendered hj (fun n hn => hnodes n (List.mem_flatMap.mpr ⟨c, hc, hn⟩))
      (hp.parent c hc) path
  have hspan : (⟨p.span.file, 1⟩ : Span) = p.span := by rw [← hp.line]
  simp only [program, hroot, ok_bind]
  rw [show (if p.span.file = "" then "" else p.span.file) = p.span.file by
    split <;> simp_all, hdecoded, hspan]
  rfl

/-- Reading undoes rendering. The plain rendering of a readable program describes it, and whatever
text spells a value that describes the program is read as the program, with its names told by their
texts. Every program that is read from a document, whatever it says, is readable. -/
theorem decode_undoes_rendering (p : Program) :
    (p.IsReadable → RendersProgram p (render p) ∧
      ∀ text j, Json.read text = some j → RendersProgram p j → decode text = .ok p.bare) ∧
    ∀ text fallback, decode text fallback = .ok p → p.IsReadable ∧ p.bare = p := by
  refine ⟨fun hp => ⟨rendersProgram_render hp.written, fun text j hread hj => ?_⟩, ?_⟩
  · rw [decode, hread]
    exact program_rendered hp hj
  · exact fun text fallback hread => read_decode hread

/-! ## A document -/

/-- A value together with its text. -/
structure Spelled where
  chars : List Char
  value : Json

namespace Spelled

def string (s : String) : Spelled :=
  ⟨'"' :: (s.toList ++ ['"']), .string s⟩

def number (s : String) : Spelled :=
  ⟨s.toList, .number s⟩

def array (items : List Spelled) : Spelled :=
  let chars := '[' :: ([','].intercalate (items.map (·.chars)) ++ [']'])
  ⟨chars, .array (String.ofList chars) (items.map (·.value))⟩

def object (members : List (String × Spelled)) : Spelled :=
  let parts := members.map fun m => (string m.1).chars ++ ':' :: m.2.chars
  let chars := '\x7b' :: ([','].intercalate parts ++ ['\x7d'])
  ⟨chars, .object (String.ofList chars) (members.map fun m => (m.1, m.2.value))⟩

/-- A node of some kind. -/
def node (kind line : String) (members : List (String × Spelled)) : Spelled :=
  object (("kind", string kind) :: ("line", number line) :: members)

end Spelled

/-- The tree of a class `A` with an attribute `n : A`, for whose initializer a type is on record,
and of an heir `B` with a method `f(x : Int) : A` whose body is
`let y : Int in { y <- ~x + 1; case y of z : Int => f(z); a : A => new B; esac; }`. -/
def varied : Program :=
  let place := fun line : Int => (⟨"f", line⟩ : Span)
  let m := fun line : Int => ({ span := place line } : Mark)
  ⟨place 1,
    [⟨place 2, .named "A", .anonymous,
      [.attr ⟨place 3, .named "n", .named "A", .noExpr ⟨place 3, .noType⟩⟩]⟩,
    ⟨place 4, .named "B", .named "A",
      [.method ⟨place 5, .named "f", [⟨place 5, .named "x", .int⟩], .named "A",
        .letIn (m 6) (.named "y") .int (.noExpr (m 6)) (.block (m 6)
          [.assign (m 7) (.named "y") (.binary (m 7) .plus
            (.unary (m 7) .neg (.object (m 7) (.named "x"))) (.int (m 7) "1")),
          .caseOf (m 8) (.object (m 8) (.named "y"))
            [.mk (place 9) (.named "z") .int (.dispatch (m 9) (.object (m 9) .self) (.named "f")
              [.object (m 9) (.named "z")]),
            .mk (place 10) (.named "a") (.named "A") (.new (m 10) (.named "B"))]])⟩]⟩]⟩

/-- A document that describes the tree. It leaves out the initializers, has a key that is not known,
and gives the literal as a number. -/
def variedDocument : Spelled :=
  let object := fun line x => Spelled.node "object" line [("name", .string x)]
  let sum := Spelled.node "plus" "7"
    [("left", .node "neg" "7" [("expr", object "7" "x")]),
      ("right", .node "int" "7" [("value", .number "1")])]
  let call := Spelled.node "dispatch" "9"
    [("receiver", object "9" "self"), ("method", .string "f"),
      ("args", .array [object "9" "z"])]
  let select := Spelled.node "typcase" "8"
    [("expr", object "8" "y"),
      ("branches", .array
        [.object [("line", .number "9"), ("name", .string "z"), ("type", .string "Int"),
          ("body", call)],
        .object [("line", .number "10"), ("name", .string "a"), ("type", .string "A"),
          ("body", .node "new" "10" [("type", .string "B")])]])]
  let body := Spelled.node "let" "6"
    [("name", .string "y"), ("type", .string "Int"),
      ("body", .node "block" "6"
        [("body", .array [.node "assign" "7" [("name", .string "y"), ("value", sum)], select])])]
  .object
    [("filename", .string "f"),
      ("classes", .array
        [.object [("line", .number "2"), ("name", .string "A"),
          ("features", .array [.node "attr" "3"
            [("name", .string "n"), ("type", .string "A"), ("x", .number "0")]])],
        .object [("line", .number "4"), ("name", .string "B"),
          ("features", .array [.node "method" "5"
            [("name", .string "f"), ("return", .string "A"),
              ("formals", .array
                [.object [("line", .number "5"), ("name", .string "x"), ("type", .string "Int")]]),
              ("body", body)]]),
          ("parent", .string "A")]])]

theorem read_ofList (cs : List Char) : Json.read (String.ofList cs) =
    (Json.Reader.value (2 * cs.length + 2) 0 (Json.Reader.skipBlanks cs)).map (·.1) := by
  rw [Json.read, String.toList_ofList]

set_option maxRecDepth 10000 in
theorem read_varied :
    Json.read (String.ofList variedDocument.chars) = some variedDocument.value := by
  rw [read_ofList]
  exact rfl

theorem varied_isReadable : varied.IsReadable := by
  have hnodes : ∀ n ∈ varied.nodes, (n.span.isIn "f" && n.token?.all isDigits) = true := by
    decide +kernel
  refine ⟨rfl, fun n hn => ⟨?_, fun token htoken => ?_⟩, by decide, by decide⟩
  · exact (Bool.and_eq_true_iff.mp (hnodes n hn)).1
  · have hdigits := (Bool.and_eq_true_iff.mp (hnodes n hn)).2
    rwa [Option.mem_def.mp htoken] at hdigits

theorem rendersProgram_varied : RendersProgram varied variedDocument.value := by
  have hplain : ∀ {optional : List String} {members : Members} (text : String),
      IsNode optional members (.object text members) :=
    fun text => isNode_of_perm [] (by simp) (List.forall_mem_nil _) text
  have hobject : ∀ {m : Mark} {x : Name} (text : String), RendersExpr (.object m x)
      (.object text (tagged "object" m.span [nameMember "name" x])) :=
    fun text => .object (hplain text)
  refine ⟨_, _, _, _, .cons ⟨_, _, .cons ?_ .nil, hplain _⟩
    (.cons ⟨_, _, .cons ?_ .nil, hplain _⟩ .nil), rfl, fun m _ => .rfl⟩
  · exact .attr (.dropped rfl) (isNode_of_perm [("x", .number "0")] (.refl _)
      (by simp [tagged, placed, nameMember]) _)
  · refine .method (.cons (hplain _) .nil) ?_ (hplain _)
    refine .letIn (.dropped rfl) (.block (.cons ?_ (.cons ?_ .nil)) (hplain _)) (hplain _)
    · exact .assign (.binary rfl (.unary rfl (hobject _) (hplain _)) (.intNumber (hplain _))
        (hplain _)) (hplain _)
    · exact .caseOf (hobject _) (.cons (.dispatch (hobject _) (.cons (hobject _) .nil) (hplain _))
        (hplain _) (.cons (.new (hplain _)) (hplain _) .nil)) (hplain _)

theorem decode_varied : varied.IsReadable ∧
    Json.read (String.ofList variedDocument.chars) = some variedDocument.value ∧
    RendersProgram varied variedDocument.value ∧
    decode (String.ofList variedDocument.chars) = .ok varied.bare := by
  have hdecode := ((decode_undoes_rendering varied).1 varied_isReadable).2 _ _ read_varied
    rendersProgram_varied
  exact ⟨varied_isReadable, read_varied, rendersProgram_varied, hdecode⟩

end Cool.Document
