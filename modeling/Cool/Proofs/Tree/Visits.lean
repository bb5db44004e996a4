import Cool.Proofs.Tree.Nodes
import Mathlib.Data.List.Lex

/-! Which nodes a walk visits, and in which order. A node of a tree has a path: the numbers of the
parts that lead to it from the root. In the lexicographic order of paths a node comes before what is
below it, and what is below one part before the next part; a walk follows that order and leaves out
what is below a node at which the visitor stops. -/

namespace Cool

/-! ## Paths -/

namespace Node

/-- The node that is there at the end of a path. -/
def at? : Node → List Nat → Option Node
  | n, [] => if n.isPresent then some n else none
  | n, i :: path => n.children[i]?.bind (·.at? path)

/-- The node at the end of a path through one of several nodes, numbered from `first` on. -/
def below? (first : Nat) (ns : List Node) : List Nat → Option Node
  | [] => none
  | i :: path => if first ≤ i then ns[i - first]?.bind (·.at? path) else none

end Node

/-- A call of a visitor: the path to the node, the node, and the answer. -/
structure VisitorCall where
  path : List Nat
  node : Node
  answer : Bool

/-- The visitor that also notes the nodes it is called on and what it answers. -/
def Visitor.logged {σ : Type} (visit : Visitor σ) : Visitor (σ × List (Node × Bool)) :=
  fun n state => ((visit n state.1).1, (visit n state.1).2, state.2 ++ [(n, (visit n state.1).1)])

/-- No node above the end of a path was answered with `false`. -/
def Unpruned (calls : List VisitorCall) (path : List Nat) : Prop :=
  ∀ c ∈ calls, c.path <+: path → c.path ≠ path → c.answer = true

/-- Calls on nodes of a tree, where `at?` gives the node at a path. They come in the order of the
paths, no path twice, and there is one for exactly those nodes that have no node answered with
`false` above them. -/
structure PrunedPreorder (at? : List Nat → Option Node) (calls : List VisitorCall) : Prop where
  found : ∀ c ∈ calls, at? c.path = some c.node
  ordered : (calls.map (·.path)).Pairwise (· < ·)
  reached : ∀ path, (∃ c ∈ calls, c.path = path) ↔
    (at? path).isSome = true ∧ Unpruned calls path

/-! ## Calls in order -/

namespace Node

theorem at?_nil {n : Node} (hn : n.isPresent = true) : n.at? [] = some n := by
  rw [at?, if_pos hn]

theorem at?_cons (n : Node) (i : Nat) (path : List Nat) :
    n.at? (i :: path) = below? 0 n.children (i :: path) := by
  rw [at?, below?, if_pos (Nat.zero_le i), Nat.sub_zero]

/-- Nothing lies below a part that is left out. -/
theorem at?_of_absent {n : Node} (hn : n.isPresent = false) (path : List Nat) :
    n.at? path = none := by
  cases path with
  | nil => simp [at?, hn]
  | cons i path =>
      have hchildren : n.children = [] := by
        revert hn
        fun_cases isPresent n with
        | case1 => exact fun _ => rfl
        | case2 => exact fun h => absurd h (by decide)
      rw [at?, hchildren]
      rfl

theorem below?_cons_self (first : Nat) (n : Node) (ns : List Node) (path : List Nat) :
    below? first (n :: ns) (first :: path) = n.at? path := by
  rw [below?, if_pos (Nat.le_refl _), Nat.sub_self]
  rfl

theorem below?_cons_ne {first i : Nat} (hi : i ≠ first) (n : Node) (ns : List Node)
    (path : List Nat) :
    below? first (n :: ns) (i :: path) = below? (first + 1) ns (i :: path) := by
  by_cases hle : first ≤ i
  · obtain ⟨k, rfl⟩ := Nat.exists_eq_add_of_lt (Nat.lt_of_le_of_ne hle (Ne.symm hi))
    have hk : first + k + 1 - first = k + 1 := by omega
    have hk' : first + k + 1 - (first + 1) = k := by omega
    rw [below?, below?, if_pos hle, if_pos (by omega), hk, hk', List.getElem?_cons_succ]
  · rw [below?, below?, if_neg hle, if_neg (by omega)]

/-- A path through one of several nodes begins with its number. -/
theorem exists_of_below? {first : Nat} {ns : List Node} {path : List Nat} {n : Node}
    (hn : below? first ns path = some n) : ∃ i rest, path = i :: rest ∧ first ≤ i := by
  cases path with
  | nil => cases hn
  | cons i rest =>
      refine ⟨i, rest, rfl, ?_⟩
      by_contra hlt
      rw [below?, if_neg hlt] at hn
      cases hn

end Node

/-- The same call, seen from a node whose part `i` it is made in. -/
def VisitorCall.under (i : Nat) (c : VisitorCall) : VisitorCall :=
  { c with path := i :: c.path }

section

variable {calls : List VisitorCall} {i : Nat} {path : List Nat}

theorem unpruned_append {calls' : List VisitorCall} :
    Unpruned (calls ++ calls') path ↔ Unpruned calls path ∧ Unpruned calls' path :=
  List.forall_mem_append

theorem unpruned_under : Unpruned (calls.map (·.under i)) (i :: path) ↔ Unpruned calls path := by
  simp [Unpruned, VisitorCall.under, List.cons_prefix_cons]

theorem exists_under : (∃ c ∈ calls.map (·.under i), c.path = i :: path) ↔
    ∃ c ∈ calls, c.path = path := by
  simp [VisitorCall.under]

/-- Calls in other parts of a node say nothing about a part. -/
theorem unpruned_of_ne (hcalls : ∀ c ∈ calls, ∃ j rest, c.path = j :: rest ∧ j ≠ i) :
    Unpruned calls (i :: path) := by
  intro c hc hprefix
  obtain ⟨j, rest, heq, hne⟩ := hcalls c hc
  rw [heq, List.cons_prefix_cons] at hprefix
  exact absurd hprefix.1 hne

theorem not_exists_of_ne (hcalls : ∀ c ∈ calls, ∃ j rest, c.path = j :: rest ∧ j ≠ i) :
    ¬ ∃ c ∈ calls, c.path = i :: path := by
  rintro ⟨c, hc, hpath⟩
  obtain ⟨j, rest, heq, hne⟩ := hcalls c hc
  exact hne (List.cons.inj (heq.symm.trans hpath)).1

/-- What is below one part comes before what is below a later part. -/
theorem ordered_under_append {calls' : List VisitorCall}
    (hcalls : (calls.map (·.path)).Pairwise (· < ·))
    (hcalls' : (calls'.map (·.path)).Pairwise (· < ·))
    (hlater : ∀ c ∈ calls', ∃ j rest, c.path = j :: rest ∧ i < j) :
    ((calls.map (·.under i) ++ calls').map (·.path)).Pairwise (· < ·) := by
  rw [List.map_append, List.pairwise_append]
  refine ⟨?_, hcalls', ?_⟩
  · rw [List.pairwise_map] at hcalls
    rw [List.map_map, List.pairwise_map]
    exact hcalls.imp fun hlt => List.cons_lt_cons_iff.mpr (.inr ⟨rfl, hlt⟩)
  · rw [List.map_map]
    intro path hin path' hin'
    obtain ⟨c, -, rfl⟩ := List.mem_map.mp hin
    obtain ⟨c', hc', rfl⟩ := List.mem_map.mp hin'
    obtain ⟨j, rest, heq, hlt⟩ := hlater c' hc'
    rw [heq]
    exact List.cons_lt_cons_iff.mpr (.inl hlt)

end

namespace PrunedPreorder

variable {calls : List VisitorCall}

theorem of_empty {at? : List Nat → Option Node} (hnone : ∀ path, at? path = none) :
    PrunedPreorder at? [] :=
  ⟨List.forall_mem_nil _, .nil, fun path => by simp [hnone]⟩

/-- The visitor stops at the root. -/
theorem stop {n : Node} (hn : n.isPresent = true) : PrunedPreorder n.at? [⟨[], n, false⟩] := by
  refine ⟨?_, List.pairwise_singleton _ _, fun path => ?_⟩
  · simp [Node.at?_nil hn]
  · cases path with
    | nil => simp [Node.at?_nil hn, Unpruned]
    | cons i path => simp [Unpruned]

/-- The visitor goes on from the root to its parts. -/
theorem go {n : Node} (hn : n.isPresent = true)
    (hcalls : PrunedPreorder (Node.below? 0 n.children) calls) :
    PrunedPreorder n.at? (⟨[], n, true⟩ :: calls) := by
  have hpath : ∀ c ∈ calls, ∃ i rest, c.path = i :: rest := by
    intro c hc
    obtain ⟨i, rest, heq, -⟩ := Node.exists_of_below? (hcalls.found c hc)
    exact ⟨i, rest, heq⟩
  refine ⟨List.forall_mem_cons.mpr ⟨Node.at?_nil hn, fun c hc => ?_⟩, ?_, fun path => ?_⟩
  · have hfound := hcalls.found c hc
    obtain ⟨i, rest, heq⟩ := hpath c hc
    rw [heq] at hfound ⊢
    rw [Node.at?_cons, hfound]
  · refine List.pairwise_cons.mpr ⟨fun path hin => ?_, hcalls.ordered⟩
    obtain ⟨c, hc, rfl⟩ := List.mem_map.mp hin
    obtain ⟨i, rest, heq⟩ := hpath c hc
    rw [heq]
    exact List.nil_lt_cons i rest
  · cases path with
    | nil =>
        refine iff_of_true ⟨_, List.mem_cons_self, rfl⟩ ⟨by rw [Node.at?_nil hn]; rfl, ?_⟩
        intro c _ hprefix hne
        exact absurd (List.prefix_nil.mp hprefix) hne
    | cons i path =>
        rw [Node.at?_cons]
        simpa [Unpruned] using hcalls.reached (i :: path)

/-- A walk over the first of several nodes, and then over the others. -/
theorem cons {first : Nat} {n : Node} {ns : List Node} {calls' : List VisitorCall}
    (hcalls : PrunedPreorder n.at? calls)
    (hcalls' : PrunedPreorder (Node.below? (first + 1) ns) calls') :
    PrunedPreorder (Node.below? first (n :: ns)) (calls.map (·.under first) ++ calls') := by
  have htail : ∀ c ∈ calls', ∃ i rest, c.path = i :: rest ∧ first < i := fun c hc =>
    Node.exists_of_below? (hcalls'.found c hc)
  refine ⟨List.forall_mem_append.mpr ⟨List.forall_mem_map.mpr fun c hc => ?_, fun c hc => ?_⟩,
    ordered_under_append hcalls.ordered hcalls'.ordered htail, fun path => ?_⟩
  · exact (Node.below?_cons_self _ _ _ _).trans (hcalls.found c hc)
  · have hfound := hcalls'.found c hc
    obtain ⟨i, rest, heq, hlt⟩ := htail c hc
    rw [heq] at hfound ⊢
    rwa [Node.below?_cons_ne (Nat.ne_of_gt hlt)]
  · cases path with
    | nil =>
        refine iff_of_false ?_ fun h => absurd h.1 Bool.false_ne_true
        rintro ⟨c, hc, hnil⟩
        rcases List.mem_append.mp hc with hc | hc
        · obtain ⟨d, -, rfl⟩ := List.mem_map.mp hc
          cases hnil
        · obtain ⟨i, rest, heq, -⟩ := htail c hc
          cases heq.symm.trans hnil
    | cons i path =>
        -- a path belongs to the first node or to the others, by the number it begins with
        simp only [List.mem_append, or_and_right, exists_or]
        rw [unpruned_append]
        by_cases hi : i = first
        · subst hi
          have hother : ∀ c ∈ calls', ∃ j rest, c.path = j :: rest ∧ j ≠ i := fun c hc => by
            obtain ⟨j, rest, heq, hlt⟩ := htail c hc
            exact ⟨j, rest, heq, Nat.ne_of_gt hlt⟩
          rw [or_iff_left (not_exists_of_ne hother), exists_under, Node.below?_cons_self,
            unpruned_under, and_iff_left (unpruned_of_ne hother)]
          exact hcalls.reached path
        · have hother : ∀ c ∈ calls.map (·.under first), ∃ j rest, c.path = j :: rest ∧ j ≠ i :=
            List.forall_mem_map.mpr fun c _ => ⟨first, c.path, rfl, Ne.symm hi⟩
          rw [or_iff_right (not_exists_of_ne hother), Node.below?_cons_ne hi,
            and_iff_right (unpruned_of_ne hother)]
          exact hcalls'.reached (i :: path)

end PrunedPreorder

/-! ## Whole walks -/

/-- What a walk from the state `s` does: it makes the given calls, and these are the calls on all
the given nodes if every answer is `true`. -/
structure Traced {σ : Type} (visit : Visitor σ) (s : σ)
    (walk : ∀ {τ : Type}, Visitor τ → τ → τ) (at? : List Nat → Option Node) (nodes : List Node)
    (calls : List VisitorCall) : Prop where
  log_eq : ∀ log, walk visit.logged (s, log) =
    (walk visit s, log ++ calls.map fun c => (c.node, c.answer))
  order : PrunedPreorder at? calls
  answered : ∀ c ∈ calls, ∃ s, (visit c.node s).1 = c.answer
  all : (∀ c ∈ calls, c.answer = true) → calls.map (·.node) = nodes

section

variable {σ : Type} {visit : Visitor σ}

/-- The calls of a walk over several nodes, if the calls of a walk over each are known. -/
theorem exists_traced_all {ns : List Node}
    (hns : ∀ n ∈ ns, ∀ s, ∃ calls, Traced visit s (fun v => n.walk v) n.at? n.nodes calls)
    (first : Nat) (s : σ) :
    ∃ calls, Traced visit s (fun v => Node.walkAll v ns) (Node.below? first ns)
      (ns.flatMap Node.nodes) calls := by
  induction ns generalizing first s with
  | nil =>
      have hnone : ∀ path, Node.below? first [] path = none := by
        rintro (_ | ⟨i, path⟩)
        · rfl
        · exact ite_self none
      exact ⟨[], fun log => by simp [Node.walkAll], .of_empty hnone, List.forall_mem_nil _,
        fun _ => rfl⟩
  | cons n ns ih =>
      obtain ⟨hn, hns⟩ := List.forall_mem_cons.mp hns
      obtain ⟨calls, hcalls⟩ := hn s
      obtain ⟨calls', hcalls'⟩ := ih hns (first + 1) (n.walk visit s)
      refine ⟨calls.map (·.under first) ++ calls', fun log => ?_, hcalls.order.cons hcalls'.order,
        List.forall_mem_append.mpr ⟨?_, hcalls'.answered⟩, fun hall => ?_⟩
      · have hstep : Node.walkAll visit.logged (n :: ns) (s, log) =
            Node.walkAll visit.logged ns (n.walk visit.logged (s, log)) := rfl
        rw [hstep, hcalls.log_eq, hcalls'.log_eq, List.map_append, List.map_map,
          List.append_assoc]
        rfl
      · exact List.forall_mem_map.mpr hcalls.answered
      · obtain ⟨hhead, htail⟩ := List.forall_mem_append.mp hall
        rw [List.map_append, List.map_map, hcalls'.all htail, List.flatMap_cons,
          ← hcalls.all (List.forall_mem_map.mp hhead)]
        rfl

/-- Every walk makes calls in order. The induction is on the parts of the node. -/
theorem exists_traced (visit : Visitor σ) (n : Node) (s : σ) :
    ∃ calls, Traced visit s (fun v => n.walk v) n.at? n.nodes calls := by
  induction n using Node.children_induction generalizing s with
  | step n ih =>
      cases hn : n.isPresent with
      | false =>
          refine ⟨[], fun log => ?_, .of_empty (Node.at?_of_absent hn), List.forall_mem_nil _, ?_⟩
          · simp [Node.walk_eq, hn]
          · simp [Node.nodes_eq n, hn]
      | true =>
          cases hanswer : (visit n s).1 with
          | false =>
              refine ⟨[⟨[], n, false⟩], fun log => ?_, .stop hn, ?_, by simp⟩
              · simp [Node.walk_eq, hn, Visitor.logged, hanswer]
              · exact List.forall_mem_singleton.mpr ⟨s, hanswer⟩
          | true =>
              obtain ⟨calls, hcalls⟩ := exists_traced_all ih 0 (visit n s).2
              refine ⟨⟨[], n, true⟩ :: calls, fun log => ?_, .go hn hcalls.order,
                List.forall_mem_cons.mpr ⟨⟨s, hanswer⟩, hcalls.answered⟩, fun hall => ?_⟩
              · have hlogged : visit.logged n (s, log) =
                    (true, (visit n s).2, log ++ [(n, true)]) := by
                  rw [Visitor.logged, hanswer]
                rw [Node.walk_eq, Node.walk_eq, hlogged, hn, hanswer]
                simp [hcalls.log_eq]
              · rw [Node.nodes_eq, if_pos hn, List.map_cons,
                  hcalls.all (List.forall_mem_cons.mp hall).2]

/-- A walk from any node, with any visitor, calls the visitor on exactly the nodes that are there
and have no node answered with `false` above them: each once, a node before what is below it, and
what is below one part before the next part. If the visitor always answers `true`, it is called on
every node of the tree. -/
theorem walk_is_pruned_preorder (visit : Visitor σ) (n : Node) (s : σ) :
    ∃ calls : List VisitorCall,
      n.walk visit.logged (s, []) =
        (n.walk visit s, calls.map fun c => (c.node, c.answer)) ∧
      PrunedPreorder n.at? calls ∧
      ((∀ m s, (visit m s).1 = true) →
        calls.map (·.node) = n.nodes ∧
        ∀ path m, n.at? path = some m → ∃ c ∈ calls, c.path = path ∧ c.node = m) := by
  obtain ⟨calls, hcalls⟩ := exists_traced visit n s
  refine ⟨calls, hcalls.log_eq [], hcalls.order, fun htrue => ?_⟩
  have hanswers : ∀ c ∈ calls, c.answer = true := by
    intro c hc
    obtain ⟨s, hs⟩ := hcalls.answered c hc
    rw [← hs, htrue]
  refine ⟨hcalls.all hanswers, fun path m hm => ?_⟩
  obtain ⟨c, hc, rfl⟩ := (hcalls.order.reached path).mpr
    ⟨by rw [hm]; rfl, fun c hc _ _ => hanswers c hc⟩
  exact ⟨c, hc, rfl, Option.some.inj ((hcalls.order.found c hc).symm.trans hm)⟩

end

/-- The sum `1 + 2`. -/
def letBody : Expr :=
  let mark : Mark := ⟨⟨"let.cl", 2⟩, .anonymous⟩
  .binary mark .plus (.int mark "1") (.int mark "2")

/-- The method `add(x : Int) : Int { let y : Int in 1 + 2 }`, in which no node stands for the absent
initializer. -/
def lettingMethod : Method :=
  let span : Span := ⟨"let.cl", 1⟩
  ⟨span, .named "add", [⟨span, .named "x", .int⟩], .int,
    .letIn ⟨span, .anonymous⟩ (.named "y") .int .missing letBody⟩

/-- A visitor that stops at its fourth call is called on nothing in the sum; one that never stops
reaches its operands. -/
theorem walk_of_lettingMethod :
    (∃ calls, PrunedPreorder (Node.method lettingMethod).at? calls ∧
      calls.map (fun c => (c.node, c.answer)) =
        [(.method lettingMethod, true), (.formal ⟨⟨"let.cl", 1⟩, .named "x", .int⟩, true),
          (.expr lettingMethod.body, true), (.expr letBody, false)]) ∧
    (∀ m s, ((fun _ k => (true, k + 1) : Visitor Nat) m s).1 = true) ∧
    ∃ calls : List VisitorCall, calls.map (·.node) = (Node.method lettingMethod).nodes ∧
      ∃ c ∈ calls, c.path = [1, 1, 1] ∧ c.node = .expr (.int ⟨⟨"let.cl", 2⟩, .anonymous⟩ "2") := by
  obtain ⟨calls, hlog, horder, -⟩ :=
    walk_is_pruned_preorder (fun _ k => (decide (k < 3), k + 1)) (.method lettingMethod) 0
  obtain ⟨calls', -, -, hall⟩ :=
    walk_is_pruned_preorder (fun _ k => (true, k + 1)) (.method lettingMethod) 0
  have htrue : ∀ m s, ((fun _ k => (true, k + 1) : Visitor Nat) m s).1 = true := fun _ _ => rfl
  obtain ⟨hnodes, hpaths⟩ := hall htrue
  exact ⟨⟨calls, horder, (congrArg Prod.snd hlog).symm⟩, htrue, calls', hnodes,
    hpaths [1, 1, 1] _ rfl⟩

end Cool
