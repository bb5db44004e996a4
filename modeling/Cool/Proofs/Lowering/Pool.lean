import Cool.Lowering.Pool
import Cool.Proofs.Interner
import Cool.Proofs.Tree.Nodes
import Mathlib.Data.List.Nodup

/-! The constants of a program. Pooling fails exactly if a literal denotes no integer; otherwise
everything that functions refer to is pooled. -/

namespace Cool

namespace Lowering.Pool

/-! ## Growing pools -/

/-- Everything pooled before is pooled under the same global, and no integer twice. -/
structure Extends (p q : Pool) : Prop where
  ints : p.ints ⊆ q.ints
  ints_nodup : p.ints.Nodup → q.ints.Nodup
  text : ∀ v g, p.text v = .ok g → q.text v = .ok g

theorem Extends.refl (p : Pool) : p.Extends p :=
  ⟨fun _ h => h, id, fun _ _ h => h⟩

theorem Extends.trans {p q r : Pool} (hpq : p.Extends q) (hqr : q.Extends r) : p.Extends r :=
  ⟨fun _ h => hqr.ints (hpq.ints h), fun h => hqr.ints_nodup (hpq.ints_nodup h),
    fun v g h => hqr.text v g (hpq.text v g h)⟩

theorem text_eq_ok {p : Pool} {v g : String} (hg : p.text v = .ok g) :
    ∃ s i, p.table.find? v = some s ∧ p.strings.idxOf? s = some i ∧ g = stringGlobal i := by
  unfold text symbol at hg
  split at hg
  · rename_i s hs
    split at hg
    · rename_i i hi
      exact ⟨s, i, hs, hi, (Except.ok.inj hg).symm⟩
    · cases hg
  · cases hg

theorem text_of_find? {p : Pool} {v : String} {s : Symbol} {i : Nat}
    (hs : p.table.find? v = some s) (hi : p.strings.idxOf? s = some i) :
    p.text v = .ok (stringGlobal i) := by
  simp only [text, hs, symbol, hi]

theorem extends_addInt (p : Pool) (n : Int32) : p.Extends (p.addInt n) := by
  unfold addInt
  split
  · exact .refl p
  · rename_i hnew
    refine ⟨List.subset_append_left _ _, fun hnodup => ?_, fun _ _ h => h⟩
    exact hnodup.append (List.nodup_singleton n) (List.disjoint_singleton.mpr hnew)

theorem mem_addInt (p : Pool) (n : Int32) : n ∈ (p.addInt n).ints := by
  unfold addInt
  split
  · assumption
  · simp

theorem strings_addText (p : Pool) (v : String) :
    ∃ new, (p.addText v).2.strings = p.strings ++ new ∧
      (p.table.intern v).1 ∈ (p.addText v).2.strings := by
  unfold addText
  dsimp only
  unfold addSymbol
  split
  · rename_i hmem
    exact ⟨[], by simp, hmem⟩
  · exact ⟨[_], rfl, by simp⟩

theorem table_addText (p : Pool) (v : String) : (p.addText v).2.table = (p.table.intern v).2 := by
  unfold addText
  dsimp only
  unfold addSymbol
  split <;> rfl

theorem ints_addText (p : Pool) (v : String) : (p.addText v).2.ints = p.ints := by
  unfold addText
  dsimp only
  unfold addSymbol
  split <;> rfl

theorem idxOf?_append {α : Type} [DecidableEq α] {xs : List α} {a : α} {i : Nat}
    (ha : xs.idxOf? a = some i) (ys : List α) : (xs ++ ys).idxOf? a = some i := by
  have ha : xs.findIdx? (· == a) = some i := ha
  rw [List.idxOf?, List.findIdx?_append, ha]
  rfl

theorem extends_addText (p : Pool) (v : String) : p.Extends (p.addText v).2 := by
  have hints := (ints_addText p v).symm
  refine ⟨fun n hn => hints ▸ hn, fun hnodup => hints ▸ hnodup, fun u g hu => ?_⟩
  obtain ⟨s, i, hs, hi, rfl⟩ := text_eq_ok hu
  obtain ⟨new, hnew, -⟩ := strings_addText p v
  refine text_of_find? (s := s) ?_ ?_
  · rw [table_addText]
    exact Interner.find?_intern hs v
  · rw [hnew]
    exact idxOf?_append hi new

theorem text_addText (p : Pool) (v : String) : ∃ g, (p.addText v).2.text v = .ok g := by
  obtain ⟨new, -, hmem⟩ := strings_addText p v
  obtain ⟨i, hi⟩ := Option.isSome_iff_exists.mp (List.isSome_idxOf?.mpr hmem)
  refine ⟨_, text_of_find? ?_ hi⟩
  rw [table_addText]
  exact Interner.find?_intern_self _ _

/-! ## Pooling a program -/

/-- Whether what a node refers to is pooled. -/
def Holds (p : Pool) : Node → Prop
  | .expr (.int _ token) => ∃ n, Literal.parse token = .ok n ∧ n ∈ p.ints
  | .expr (.string _ value) => ∃ g, p.text value = .ok g
  | _ => True

/-- Whether a literal denotes an integer, and every other node. -/
def Denotes : Node → Prop
  | .expr (.int _ token) => ∃ n, Literal.parse token = .ok n
  | _ => True

theorem Holds.mono {p q : Pool} (hpq : p.Extends q) {n : Node} (hn : p.Holds n) : q.Holds n := by
  unfold Holds at hn ⊢
  split at hn
  · obtain ⟨k, hk, hmem⟩ := hn
    exact ⟨k, hk, hpq.ints hmem⟩
  · obtain ⟨g, hg⟩ := hn
    exact ⟨g, hpq.text _ _ hg⟩
  · trivial

theorem visit_ok (n : Node) (p : Pool) : (visit n (.ok p)).1 = true := by
  unfold visit
  split <;> simp_all

theorem visit_error (n : Node) (e : LiteralError) : visit n (.error e) = (false, .error e) := by
  unfold visit
  rfl

theorem visit_isFinal : Visitor.IsFinal visit := by
  intro n s hstop n'
  cases s with
  | error e => rw [visit_error, visit_error]
  | ok p => rw [visit_ok] at hstop; cases hstop

theorem fold_error (ns : List Node) (e : LiteralError) :
    Visitor.fold visit ns (.error e) = .error e :=
  Visitor.fold_of_fixed (fun n => by rw [visit_error]) ns

/-- What a visit pools, and that it fails only at a literal that denotes nothing. -/
theorem visit_cases (n : Node) (p : Pool) :
    (∃ q, (visit n (.ok p)).2 = .ok q ∧ p.Extends q ∧ q.Holds n ∧ Denotes n) ∨
      ∃ e, (visit n (.ok p)).2 = .error e ∧ ¬ Denotes n := by
  unfold visit Holds Denotes
  split
  · rename_i heq
    cases heq
  · rename_i m token p' heq
    cases heq
    cases hparse : Literal.parse token with
    | error e => exact Or.inr ⟨e, by simp [addToken, hparse, Except.map], by simp [hparse]⟩
    | ok k =>
        refine Or.inl ⟨p.addInt k, by simp [addToken, hparse, Except.map], extends_addInt p k, ?_⟩
        exact ⟨⟨k, hparse, mem_addInt p k⟩, k, hparse⟩
  · rename_i m value p' heq
    cases heq
    exact Or.inl ⟨_, rfl, extends_addText p value, text_addText p value, trivial⟩
  · rename_i hint hstring heq
    cases heq
    refine Or.inl ⟨p, rfl, .refl p, ?_, ?_⟩
    · split
      · exact absurd rfl (hint _ _)
      · exact absurd rfl (hstring _ _)
      · trivial
    · split
      · exact absurd rfl (hint _ _)
      · trivial

theorem fold_ok {ns : List Node} {p q : Pool} (hq : Visitor.fold visit ns (.ok p) = .ok q) :
    p.Extends q ∧ ∀ n ∈ ns, q.Holds n ∧ Denotes n := by
  induction ns generalizing p with
  | nil =>
      cases hq
      exact ⟨.refl _, by simp⟩
  | cons n ns ih =>
      rw [Visitor.fold, List.foldl_cons] at hq
      rcases visit_cases n p with ⟨r, hr, hext, hholds, hden⟩ | ⟨e, he, -⟩
      · rw [hr] at hq
        obtain ⟨hext', hrest⟩ := ih hq
        exact ⟨hext.trans hext',
          List.forall_mem_cons.mpr ⟨⟨hholds.mono hext', hden⟩, hrest⟩⟩
      · rw [he] at hq
        cases (fold_error ns e).symm.trans hq

theorem exists_fold_ok {ns : List Node} (hns : ∀ n ∈ ns, Denotes n) (p : Pool) :
    ∃ q, Visitor.fold visit ns (.ok p) = .ok q := by
  induction ns generalizing p with
  | nil => exact ⟨p, rfl⟩
  | cons n ns ih =>
      obtain ⟨hn, hrest⟩ := List.forall_mem_cons.mp hns
      rw [Visitor.fold, List.foldl_cons]
      rcases visit_cases n p with ⟨r, hr, -⟩ | ⟨e, -, hnot⟩
      · rw [hr]
        exact ih hrest r
      · exact absurd hn hnot

theorem collect_eq_fold (p : Pool) (program : Program) :
    p.collect program = Visitor.fold visit program.nodes (.ok p) :=
  Program.walk_eq_fold visit_isFinal program _

theorem extends_addClasses (classes : List Name) (p : Pool) :
    p.Extends (classes.foldl (fun p c => (p.addText c.text).2) p) ∧
      ∀ c ∈ classes,
        ∃ g, (classes.foldl (fun p c => (p.addText c.text).2) p).text c.text = .ok g := by
  induction classes generalizing p with
  | nil => exact ⟨.refl p, by simp⟩
  | cons c classes ih =>
      obtain ⟨hext, hall⟩ := ih (p.addText c.text).2
      obtain ⟨g, hg⟩ := text_addText p c.text
      refine ⟨(extends_addText p c.text).trans hext, ?_⟩
      exact List.forall_mem_cons.mpr ⟨⟨g, hext.text _ _ hg⟩, hall⟩

/-- What the pool of a program promises to the functions that refer to it. -/
structure Serves (pool : Pool) (classes : List Name) (program : Program) : Prop where
  ints_nodup : pool.ints.Nodup
  zero : 0 ∈ pool.ints
  empty : ∃ g, pool.text "" = .ok g
  names : ∀ c ∈ classes, ∃ g, pool.text c.text = .ok g
  nodes : ∀ n ∈ program.nodes, pool.Holds n

theorem serves_of_ofProgram {table : Interner} {classes : List Name} {program : Program}
    {pool : Pool} (hp : ofProgram table classes program = .ok pool) :
    pool.Serves classes program := by
  rw [ofProgram, collect_eq_fold] at hp
  obtain ⟨hext, hnodes⟩ := fold_ok hp
  obtain ⟨hseed, hclasses⟩ := extends_addClasses classes (seed table)
  have hall := hseed.trans hext
  obtain ⟨g, hg⟩ := text_addText (({ table := table } : Pool).addInt 0) ""
  refine ⟨hall.ints_nodup (List.nodup_singleton 0), hall.ints ?_, ⟨g, hall.text _ _ hg⟩, ?_,
    fun n hn => (hnodes n hn).1⟩
  · exact (extends_addText _ _).ints (mem_addInt _ 0)
  · intro c hc
    obtain ⟨g, hg⟩ := hclasses c hc
    exact ⟨g, hext.text _ _ hg⟩

/-- A program has a pool exactly if every literal denotes an integer. -/
theorem exists_ofProgram_iff {table : Interner} {classes : List Name} {program : Program} :
    (∃ pool, ofProgram table classes program = .ok pool) ↔ ∀ n ∈ program.nodes, Denotes n := by
  unfold ofProgram
  rw [collect_eq_fold]
  constructor
  · rintro ⟨pool, hp⟩ n hn
    exact ((fold_ok hp).2 n hn).2
  · exact fun hns => exists_fold_ok hns _

end Lowering.Pool

end Cool
