import Cool.Tree.Interning
import Cool.Proofs.Literal
import Cool.Proofs.Lowering.Distinct
import Cool.Proofs.Lowering.Representation
import Cool.Proofs.Pipeline.Acceptance
import Cool.Proofs.Scope

/-! The constants of a module, exactly: which there are and in which order, what the globals around
them hold, and which literals share one. -/

namespace Cool

open Scope (distinct)

/-- The text of a string literal. -/
def Node.text? : Node → Option String
  | .expr (.string _ value) => some value
  | _ => none

namespace Program

/-- The tokens of the integer literals of a program in source order. -/
def tokens (p : Program) : List String :=
  p.nodes.filterMap Node.token?

/-- The texts of the string literals of a program in source order. -/
def texts (p : Program) : List String :=
  p.nodes.filterMap Node.text?

end Program

/-- Why a token denotes no integer, if it does not. -/
def Literal.error? (token : String) : Option LiteralError :=
  match parse token with
  | .error e => some e
  | .ok _ => none

namespace Lowering

open Wat

namespace Pool

/-! ## What is pooled -/

/-- A visit pools what its node says, and fails with the error of a token. -/
theorem visit_eq (n : Node) (p : Pool) :
    (visit n (.ok p)).2 =
      match n.token?, n.text? with
      | some token, _ => (Literal.parse token).map p.addInt
      | none, some v => .ok (p.addText v).2
      | none, none => .ok p := by
  cases n with
  | expr e => cases e <;> rfl
  | _ => rfl

/-- A pool whose constants are those of two lists, each once and in the order of the lists. Its
symbols are those of its table, which has the symbols of another one. -/
structure Lists (strings : Interner) (pool : Pool) (ns : List Int32) (vs : List String) : Prop where
  ints_eq : pool.ints = distinct ns
  texts_eq : pool.strings.map (·.text) = distinct vs
  symbols : ∀ s ∈ pool.strings, pool.table.find? s.text = some s
  table : ∀ v s, strings.find? v = some s → pool.table.find? v = some s

section

variable {strings : Interner} {pool : Pool} {ns : List Int32} {vs : List String}

theorem Lists.addInt (h : pool.Lists strings ns vs) (n : Int32) :
    (pool.addInt n).Lists strings (ns ++ [n]) vs := by
  have hmem : n ∈ pool.ints ↔ n ∈ ns := by rw [h.ints_eq, Scope.mem_distinct]
  unfold Pool.addInt
  split
  · rename_i hn
    refine ⟨?_, h.texts_eq, h.symbols, h.table⟩
    rw [Scope.distinct_append_singleton, if_pos (hmem.mp hn), h.ints_eq]
  · rename_i hn
    refine ⟨?_, h.texts_eq, h.symbols, h.table⟩
    rw [Scope.distinct_append_singleton, if_neg (hmem.not.mp hn), h.ints_eq]

/-- A text is pooled exactly if the symbol that its table has for it is. -/
theorem Lists.mem_strings (h : pool.Lists strings ns vs) (v : String) :
    (pool.table.intern v).1 ∈ pool.strings ↔ v ∈ vs := by
  have htexts : v ∈ vs ↔ v ∈ pool.strings.map (·.text) := by rw [h.texts_eq, Scope.mem_distinct]
  rw [htexts, List.mem_map]
  constructor
  · intro hmem
    exact ⟨_, hmem, Interner.text_intern _ v⟩
  · rintro ⟨s, hs, rfl⟩
    rw [Interner.intern_of_find? (h.symbols s hs)]
    exact hs

theorem Lists.addText (h : pool.Lists strings ns vs) (v : String) :
    (pool.addText v).2.Lists strings ns (vs ++ [v]) := by
  have hself := Interner.find?_intern_self pool.table v
  have hsymbols : ∀ s ∈ pool.strings, (pool.table.intern v).2.find? s.text = some s :=
    fun s hs => Interner.find?_intern (h.symbols s hs) v
  have htable : ∀ u s, strings.find? u = some s → (pool.table.intern v).2.find? u = some s :=
    fun u s hu => Interner.find?_intern (h.table u s hu) v
  rw [Pool.addText]
  dsimp only
  unfold addSymbol
  split
  · rename_i hmem
    refine ⟨h.ints_eq, ?_, hsymbols, htable⟩
    rw [Scope.distinct_append_singleton, if_pos ((h.mem_strings v).mp hmem)]
    exact h.texts_eq
  · rename_i hmem
    refine ⟨h.ints_eq, ?_, ?_, htable⟩
    · rw [Scope.distinct_append_singleton, if_neg ((h.mem_strings v).not.mp hmem), List.map_append,
        ← h.texts_eq]
      simp [Interner.text_intern]
    · intro s hs
      rcases List.mem_append.mp hs with hs | hs
      · exact hsymbols s hs
      · rw [List.mem_singleton.mp hs, Interner.text_intern]
        exact hself

theorem lists_seed (strings : Interner) : (seed strings).Lists strings [0] [""] := by
  have hempty : ({ table := strings } : Pool).Lists strings [] [] :=
    ⟨rfl, rfl, by simp, fun _ _ h => h⟩
  exact (hempty.addInt 0).addText ""

theorem Lists.addClasses (h : pool.Lists strings ns vs) (classes : List Name) :
    (classes.foldl (fun p c => (p.addText c.text).2) pool).Lists strings ns
      (vs ++ classes.map Name.text) := by
  induction classes generalizing pool vs with
  | nil => simpa using h
  | cons c classes ih => simpa using ih (h.addText c.text)

/-- What the literals of nodes add to a pool. -/
theorem Lists.fold (h : pool.Lists strings ns vs) {nodes : List Node} {pool' : Pool}
    (hfold : Visitor.fold visit nodes (.ok pool) = .ok pool') :
    ∃ values, List.Forall₂ (fun t n => Literal.parse t = .ok n) (nodes.filterMap Node.token?)
        values ∧
      pool'.Lists strings (ns ++ values) (vs ++ nodes.filterMap Node.text?) := by
  induction nodes generalizing pool ns vs with
  | nil =>
      cases hfold
      exact ⟨[], .nil, by simpa using h⟩
  | cons n nodes ih =>
      rw [Visitor.fold, List.foldl_cons, visit_eq] at hfold
      cases htoken : n.token? with
      | some token =>
          have htext : n.text? = none := by
            unfold Node.token? at htoken
            split at htoken
            · rfl
            · cases htoken
          simp only [htoken] at hfold
          cases hparse : Literal.parse token with
          | error e =>
              rw [hparse] at hfold
              cases (fold_error nodes e).symm.trans hfold
          | ok k =>
              rw [hparse] at hfold
              obtain ⟨values, hvalues, hlists⟩ := ih (h.addInt k) hfold
              refine ⟨k :: values, ?_, ?_⟩
              · rw [List.filterMap_cons_some htoken]
                exact .cons hparse hvalues
              · rw [List.filterMap_cons_none htext]
                simpa using hlists
      | none =>
          rw [List.filterMap_cons_none htoken]
          cases htext : n.text? with
          | some v =>
              simp only [htoken, htext] at hfold
              obtain ⟨values, hvalues, hlists⟩ := ih (h.addText v) hfold
              refine ⟨values, hvalues, ?_⟩
              rw [List.filterMap_cons_some htext]
              simpa using hlists
          | none =>
              simp only [htoken, htext] at hfold
              rw [List.filterMap_cons_none htext]
              exact ih h hfold

end

/-- Pooling fails with the error of the first token that denotes no integer. -/
theorem fold_eq_error_iff {nodes : List Node} {p : Pool} {e : LiteralError} :
    Visitor.fold visit nodes (.ok p) = .error e ↔
      (nodes.filterMap Node.token?).findSome? Literal.error? = some e := by
  induction nodes generalizing p with
  | nil => simp [Visitor.fold]
  | cons n nodes ih =>
      rw [Visitor.fold, List.foldl_cons, visit_eq]
      cases htoken : n.token? with
      | some token =>
          rw [List.filterMap_cons_some htoken, List.findSome?_cons, Literal.error?]
          dsimp only
          cases Literal.parse token with
          | error e' =>
              change Visitor.fold visit nodes (.error e') = .error e ↔ _
              simp [fold_error]
          | ok k => exact ih
      | none =>
          rw [List.filterMap_cons_none htoken]
          cases n.text? with
          | some v => exact ih
          | none => exact ih

end Pool

/-! ## The globals of the constants -/

/-- The number of an instruction that makes one. -/
def number? : Instr → Option Int32
  | .plain (.const n) [] => some n
  | _ => none

/-- The integer that a global is an object around. -/
def integer? (g : Global) : Option Int32 :=
  match g.init with
  | .plain (.structNew t) [.plain (.globalGet table) [], contents] =>
    if t = classType .int ∧ table = tableGlobal .int then number? contents else none
  | _ => none

section

variable {strings : Interner} {pool : Pool} {ns : List Int32} {vs : List String}

end

/-! ## The constants of a module -/

theorem pool_of_generate {ms : Members} {strings : Interner} {p : Program} {out : Output}
    (hout : generate ms strings p = .ok out) :
    Pool.ofProgram strings ms.hierarchy.topological p = .ok out.pool ∧
      out.module.globals =
        ms.hierarchy.topological.map (tableDefinition ms) ++ out.pool.globals := by
  rw [generate] at hout
  split at hout
  · cases hout
  · rename_i pool hpool
    split at hout
    · cases hout
    · cases hout
      exact ⟨hpool, rfl⟩

/-- The tree of a class `A` with the attributes `x : Int <- 7`, `y : Int <- 007`,
`s : String <- "A"` and `t : String <- "é"`. -/
def spelledTwice : Program :=
  let span : Span := ⟨"spelled.cl", 1⟩
  let m : Mark := { span }
  ⟨span, [⟨span, .named "A", .object,
    [.attr ⟨span, .named "x", .int, .int m "7"⟩,
      .attr ⟨span, .named "y", .int, .int m "007"⟩,
      .attr ⟨span, .named "s", .string, .string m "A"⟩,
      .attr ⟨span, .named "t", .string, .string m "é"⟩]⟩]⟩

end Lowering

end Cool
