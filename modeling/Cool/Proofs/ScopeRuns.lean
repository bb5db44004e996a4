import Cool.Name
import Cool.Proofs.Scope
import Mathlib.Data.List.Induction
import Mathlib.Data.List.Infix

/-! Scopes after any operations. What a scope finds and shows follows from the bindings that were
made in the frames still open, and what is done inside a frame is undone by leaving it. -/

namespace Cool.Scope

variable {κ ν : Type} [DecidableEq κ]

/-- An operation on a scope. -/
inductive Op (κ ν : Type) where
  | enter
  | exit
  | add (key : κ) (value : ν)

/-- The scope after a change, or the scope before it where the change is refused. -/
def settle (s : Scope κ ν) : Except ScopeError (Scope κ ν) → Option ScopeError × Scope κ ν
  | .ok changed => (none, changed)
  | .error e => (some e, s)

/-- Performs an operation: the error if there is one, and the scope afterwards. -/
def perform (s : Scope κ ν) : Op κ ν → Option ScopeError × Scope κ ν
  | .enter => (none, s.enter)
  | .exit => s.settle s.exit
  | .add key value => s.settle (s.add key value)

/-- The scope after operations, of which some may be refused. -/
def run (s : Scope κ ν) (ops : List (Op κ ν)) : Scope κ ν :=
  ops.foldl (fun s op => (s.perform op).2) s

/-- Operations that never go below the depth they start at, and end at it. -/
structure Balanced (s : Scope κ ν) (ops : List (Op κ ν)) : Prop where
  stays : ∀ before, before <+: ops → s.depth ≤ (s.run before).depth
  returns : (s.run ops).depth = s.depth

/-! ## Bindings made -/

/-- Notes an operation in the frames that are open, the innermost first. A frame lists every binding
made in it, a later one of the same key after an earlier one. -/
def note : List (List (κ × ν)) → Op κ ν → List (List (κ × ν))
  | frames, .enter => [] :: frames
  | frames, .exit => frames.tail
  | [], .add _ _ => []
  | frame :: frames, .add key value => (frame ++ [(key, value)]) :: frames

/-- The bindings made by operations in the frames that are still open, the innermost frame first. -/
def bindings (ops : List (Op κ ν)) : List (List (κ × ν)) :=
  ops.foldl note []

/-- The value bound last to a key in the innermost frame that binds it. -/
def latest (frames : List (List (κ × ν))) (k : κ) : Option ν :=
  frames.findSome? fun frame => (frame.filter (·.1 = k)).getLast?.map (·.2)

/-- The keys bound in frames, the outermost frame first and in each frame binding by binding. -/
def keysBound (frames : List (List (κ × ν))) : List (List κ) :=
  frames.reverse.map fun frame => frame.map (·.1)

/-- The number of the outermost frame that binds a key, counted from the outside. -/
def outermost (keys : List (List κ)) (k : κ) : Nat :=
  keys.findIdx (k ∈ ·)

/-- The number of the first binding of a key in the outermost frame that binds it. -/
def firstBinding (keys : List (List κ)) (k : κ) : Nat :=
  (keys.getD (outermost keys k) []).idxOf k

/-- Whether a key was bound in a frame further out than another, or in the same frame before it. -/
def BoundEarlier (keys : List (List κ)) (k k' : κ) : Prop :=
  outermost keys k < outermost keys k' ∨
    outermost keys k = outermost keys k' ∧ firstBinding keys k < firstBinding keys k'

/-- The scope whose frames are opened with the given bindings, the innermost frame first. -/
def ofBindings (frames : List (List (κ × ν))) : Scope κ ν :=
  ⟨frames.map .ofList⟩

/-- One operation does to a scope what it does to the bindings made. -/
theorem perform_ofBindings (frames : List (List (κ × ν))) (op : Op κ ν) :
    ((ofBindings frames).perform op).2 = ofBindings (note frames op) := by
  cases op with
  | enter => rfl
  | exit => cases frames <;> rfl
  | add key value =>
      cases frames with
      | nil => rfl
      | cons frame frames =>
          simp only [perform, add, ofBindings, settle, note, List.map_cons, Frame.ofList,
            List.foldl_append, List.foldl_cons, List.foldl_nil]

theorem run_ofBindings (frames : List (List (κ × ν))) (ops : List (Op κ ν)) :
    (ofBindings frames).run ops = ofBindings (ops.foldl note frames) := by
  induction ops generalizing frames with
  | nil => rfl
  | cons op ops ih =>
      rw [run, List.foldl_cons, perform_ofBindings, List.foldl_cons]
      exact ih (note frames op)

theorem run_eq_ofBindings (ops : List (Op κ ν)) : run {} ops = ofBindings (bindings ops) :=
  run_ofBindings [] ops

theorem lookup_ofBindings (frames : List (List (κ × ν))) (k : κ) :
    (ofBindings frames).lookup k = latest frames k := by
  rw [lookup, ofBindings, List.findSome?_map, latest]
  exact congrArg (List.findSome? · frames) (funext fun frame => Frame.values_ofList frame k)

/-! ## Keys in order -/

/-- The keys of a frame stand in the order of their first bindings. -/
theorem order_ofList (bs : List (κ × ν)) : (Frame.ofList bs).order = distinct (bs.map (·.1)) := by
  induction bs using List.reverseRecOn with
  | nil => rfl
  | append_singleton bs b ih =>
      rw [Frame.ofList, List.foldl_append, List.foldl_cons, List.foldl_nil, Frame.order_bind,
        ← Frame.ofList, ih, List.map_append, List.map_cons, List.map_nil,
        distinct_append_singleton]
      simp only [mem_distinct]

theorem distinct_flatMap_distinct (kss : List (List κ)) :
    distinct (kss.flatMap distinct) = distinct kss.flatten := by
  induction kss with
  | nil => rfl
  | cons ks kss ih =>
      rw [List.flatMap_cons, List.flatten_cons, distinct_append, distinct_append, ih,
        distinct_of_nodup (distinct_nodup ks)]
      simp only [mem_distinct]

theorem keys_ofBindings (frames : List (List (κ × ν))) :
    (ofBindings frames).keys = distinct (keysBound frames).flatten := by
  rw [keys, ofBindings, keysBound, ← distinct_flatMap_distinct, ← List.map_reverse,
    List.flatMap_map, List.flatMap_map]
  simp only [order_ofList]

theorem visible_keys (s : Scope κ ν) : s.visible.map (·.1) = s.keys := by
  rw [visible, List.map_filterMap]
  refine (List.filterMap_congr fun k hk => ?_).trans List.filterMap_some
  obtain ⟨v, hv⟩ := Option.isSome_iff_exists.mp (isSome_lookup hk)
  rw [hv]
  rfl

/-- The first occurrence of a key in all frames is its first binding in the outermost frame that
binds it. -/
theorem boundEarlier_of_idxOf_lt {keys : List (List κ)} {k k' : κ} (hk : k ∈ keys.flatten)
    (hk' : k' ∈ keys.flatten) (hlt : keys.flatten.idxOf k < keys.flatten.idxOf k') :
    BoundEarlier keys k k' := by
  induction keys with
  | nil => cases hk
  | cons frame keys ih =>
      have hout : ∀ y, outermost (frame :: keys) y =
          if y ∈ frame then 0 else outermost keys y + 1 := by
        intro y
        rw [outermost, List.findIdx_cons]
        by_cases hy : y ∈ frame <;> simp [hy, outermost]
      have hfirst : ∀ y, firstBinding (frame :: keys) y =
          if y ∈ frame then frame.idxOf y else firstBinding keys y := by
        intro y
        rw [firstBinding, hout]
        by_cases hy : y ∈ frame <;> simp [hy, firstBinding]
      rw [List.flatten_cons] at hk hk' hlt
      unfold BoundEarlier
      rw [hout, hout, hfirst, hfirst]
      by_cases hin : k ∈ frame
      · by_cases hin' : k' ∈ frame
        · rw [List.idxOf_append_of_mem hin, List.idxOf_append_of_mem hin'] at hlt
          simp [hin, hin', hlt]
        · simp [hin, hin']
      · by_cases hin' : k' ∈ frame
        · rw [List.idxOf_append_of_notMem hin, List.idxOf_append_of_mem hin'] at hlt
          have hbound := List.idxOf_lt_length_of_mem hin'
          omega
        · rw [List.idxOf_append_of_notMem hin, List.idxOf_append_of_notMem hin'] at hlt
          have hrest := ih ((List.mem_append.mp hk).resolve_left hin)
            ((List.mem_append.mp hk').resolve_left hin') (by omega)
          simpa [hin, hin', BoundEarlier] using hrest

theorem visible_ofBindings_pairwise (frames : List (List (κ × ν))) :
    ((ofBindings frames).visible.map (·.1)).Pairwise (BoundEarlier (keysBound frames)) := by
  rw [visible_keys, keys_ofBindings]
  exact (distinct_pairwise _).imp_of_mem fun hk hk' hlt =>
    boundEarlier_of_idxOf_lt (mem_distinct.mp hk) (mem_distinct.mp hk') hlt

/-! ## Frames left alone -/

/-- An operation after which some frame above `base` is left does not touch the frames in `base`. -/
theorem perform_above {s : Scope κ ν} {top base : List (Frame κ ν)}
    (hs : s.frames = top ++ base) (hdepth : base.length < s.depth) (op : Op κ ν) :
    ∃ top', (s.perform op).2.frames = top' ++ base := by
  obtain ⟨frames⟩ := s
  obtain rfl : frames = top ++ base := hs
  cases top with
  | nil => exact absurd hdepth (Nat.lt_irrefl _)
  | cons frame top =>
      cases op with
      | enter => exact ⟨{} :: frame :: top, rfl⟩
      | exit => exact ⟨top, rfl⟩
      | add key value => exact ⟨frame.bind key value :: top, rfl⟩

theorem run_above (base : List (Frame κ ν)) {s : Scope κ ν} {ops : List (Op κ ν)}
    (hs : ∃ top, s.frames = top ++ base)
    (hdepth : ∀ before, before <+: ops → base.length < (s.run before).depth) :
    ∃ top, (s.run ops).frames = top ++ base := by
  induction ops generalizing s with
  | nil => exact hs
  | cons op ops ih =>
      obtain ⟨top, htop⟩ := hs
      have hstart : base.length < s.depth := hdepth [] List.nil_prefix
      refine ih (perform_above htop hstart op) fun before hbefore => ?_
      exact hdepth (op :: before) (List.cons_prefix_cons.mpr ⟨rfl, hbefore⟩)

/-- What was done since a frame was opened is undone by leaving it. -/
theorem exit_run_enter {s : Scope κ ν} {ops : List (Op κ ν)} (hops : s.enter.Balanced ops) :
    (s.enter.run ops).exit = .ok s := by
  obtain ⟨top, htop⟩ := run_above s.frames (s := s.enter) ⟨[{}], rfl⟩ fun before hbefore =>
    Nat.lt_of_lt_of_le (Nat.lt_succ_self _) (hops.stays before hbefore)
  have hdepth : (top ++ s.frames).length = s.frames.length + 1 := htop ▸ hops.returns
  rw [List.length_append] at hdepth
  obtain ⟨frame, rfl⟩ := List.length_eq_one_iff.mp (show top.length = 1 by omega)
  rw [exit, htop]
  rfl

/-- The error of an operation where no frame is open. -/
def Op.error? : Op κ ν → Option ScopeError
  | enter => none
  | exit => some .nothingToLeave
  | add _ _ => some .nowhereToBind

/-- Operations are refused only where no frame is open. -/
theorem perform_error (s : Scope κ ν) (op : Op κ ν) :
    (s.perform op).1 = if s.depth = 0 then op.error? else none := by
  obtain ⟨frames⟩ := s
  cases frames with
  | nil => cases op <;> rfl
  | cons frame frames => cases op <;> rfl

omit [DecidableEq κ] in
theorem settle_refused {s : Scope κ ν} {changed : Except ScopeError (Scope κ ν)} {e : ScopeError}
    (he : (s.settle changed).1 = some e) : (s.settle changed).2 = s := by
  cases changed with
  | ok s' => cases he
  | error e' => rfl

theorem perform_refused {s : Scope κ ν} {op : Op κ ν} {e : ScopeError}
    (he : (s.perform op).1 = some e) : (s.perform op).2 = s := by
  cases op with
  | enter => cases he
  | exit => exact settle_refused he
  | add key value => exact settle_refused he

/-- The laws of a scope after any operations. It shows each key once, namely those it finds, with
the value it finds; they stand in the order of the outermost frames that bind them, and in a frame
in the order of their first bindings. What is found is what was bound last in the innermost frame
that binds the key. Leaving a frame undoes everything done since it was opened, if the operations in
between are balanced. Operations are refused only where no frame is open, and then change
nothing. -/
theorem laws_of_run (ops : List (Op κ ν)) :
    ((run {} ops).visible.map (·.1)).Nodup ∧
    (∀ k v, (k, v) ∈ (run {} ops).visible ↔ (run {} ops).lookup k = some v) ∧
    ((run {} ops).visible.map (·.1)).Pairwise (BoundEarlier (keysBound (bindings ops))) ∧
    (∀ k, (run {} ops).lookup k = latest (bindings ops) k) ∧
    (∀ inner, (run {} ops).enter.Balanced inner →
      ((run {} ops).enter.run inner).exit = .ok (run {} ops)) ∧
    (∀ op, ((run {} ops).perform op).1 = if (run {} ops).depth = 0 then op.error? else none) ∧
    (∀ op e, ((run {} ops).perform op).1 = some e → ((run {} ops).perform op).2 = run {} ops) := by
  refine ⟨visible_nodup _, fun k v => mem_visible, ?_, fun k => ?_, fun inner => exit_run_enter,
    perform_error _, fun op e => perform_refused⟩
  · rw [run_eq_ofBindings]
    exact visible_ofBindings_pairwise _
  · rw [run_eq_ofBindings]
    exact lookup_ofBindings _ k

/-- Two frames of which the inner one hides the bindings of the outer one, one of them twice. -/
def shadowing : List (Op Name Nat) :=
  [.enter, .add (.named "x") 1, .add (.named "y") 2, .enter, .add (.named "y") 3,
    .add (.named "z") 4, .add (.named "x") 5, .add (.named "y") 6]

/-- Operations in a frame that open another one and leave it. -/
def nesting : List (Op Name Nat) :=
  [.enter, .add (.named "x") 7, .exit, .add (.named "z") 8]

theorem laws_of_shadowing :
    (run {} shadowing).visible = [(.named "x", 5), (.named "y", 6), (.named "z", 4)] ∧
      BoundEarlier (keysBound (bindings shadowing)) (.named "x") (.named "z") ∧
      (run {} shadowing).enter.Balanced nesting ∧
      ((run {} shadowing).enter.run nesting).exit = .ok (run {} shadowing) ∧
      (perform (κ := Name) (ν := Nat) {} .exit).1 = some .nothingToLeave ∧
      (perform (κ := Name) (ν := Nat) {} .exit).2 = {} := by
  obtain ⟨-, -, hordered, -, hundone, -, -⟩ := laws_of_run shadowing
  obtain ⟨-, -, -, -, -, -, hrefused⟩ := laws_of_run ([] : List (Op Name Nat))
  have hvisible : (run {} shadowing).visible =
      [(.named "x", 5), (.named "y", 6), (.named "z", 4)] := by decide
  have hprefixes : ∀ before ∈ nesting.inits,
      (run {} shadowing).enter.depth ≤ ((run {} shadowing).enter.run before).depth := by decide
  have hbalanced : (run {} shadowing).enter.Balanced nesting :=
    ⟨fun before hbefore => hprefixes before ((List.mem_inits _ _).mpr hbefore), by decide⟩
  rw [hvisible] at hordered
  refine ⟨hvisible, ?_, hbalanced, hundone _ hbalanced, rfl, hrefused .exit _ rfl⟩
  exact (List.pairwise_cons.mp hordered).1 _ (by decide)

end Cool.Scope
