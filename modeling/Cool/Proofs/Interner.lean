import Cool.Interner
import Cool.Proofs.Scope
import Mathlib.Data.List.Induction

/-! Interning. A table lists the texts in the order in which they were first interned, and finds
each of them under its number, so texts and numbers determine each other; it only grows, so a symbol
stays what it was when it was handed out. -/

namespace Cool.Interner

/-- A symbol that was handed out stays as it is. -/
theorem find?_intern {t : Interner} {text : String} {s : Symbol} (hs : t.find? text = some s)
    (other : String) : (t.intern other).2.find? text = some s := by
  unfold intern
  split
  · exact hs
  · rename_i hnone
    have hne : text ≠ other := by
      rintro rfl
      cases hs.symm.trans hnone
    exact (if_neg hne).trans hs

theorem text_intern (t : Interner) (text : String) : (t.intern text).1.text = text := by
  unfold intern
  split
  · rename_i s hs
    exact ((t.inStep text s).mp hs).2
  · rfl

theorem find?_intern_self (t : Interner) (text : String) :
    (t.intern text).2.find? text = some (t.intern text).1 := by
  unfold intern
  split
  · assumption
  · exact if_pos rfl

/-! ## Calls -/

/-- A call on a table. -/
inductive Call where
  | intern (text : String)
  | find (text : String)
deriving DecidableEq

/-- Makes a call: the symbol it answers with, and the table afterwards. -/
def perform (t : Interner) : Call → Option Symbol × Interner
  | .intern text => (some (t.intern text).1, (t.intern text).2)
  | .find text => (t.find? text, t)

/-- The table after calls. -/
def run (t : Interner) (calls : List Call) : Interner :=
  calls.foldl (fun t call => (t.perform call).2) t

/-- The table after calls on an empty one. -/
def table (calls : List Call) : Interner :=
  run {} calls

/-- The text that a call interns. -/
def Call.interned? : Call → Option String
  | intern text => some text
  | find _ => none

/-- The texts that calls intern, call by call. -/
def interned (calls : List Call) : List String :=
  calls.filterMap Call.interned?

/-- The entries of a table are numbered from zero on, in the order in which their texts first occur
among those interned, and no text has two of them. -/
structure Numbers (t : Interner) (texts : List String) : Prop where
  get?_isSome : ∀ i, (t.get? i).isSome = true ↔ i < t.size
  id_eq : ∀ i s, t.get? i = some s → s.id = i
  text_inj : ∀ i j s s', t.get? i = some s → t.get? j = some s' → s.text = s'.text → i = j
  first : ∀ i j s s', t.get? i = some s → t.get? j = some s' → i < j →
    texts.idxOf s.text < texts.idxOf s'.text
  mem_iff : ∀ text, text ∈ texts ↔ ∃ i s, t.get? i = some s ∧ s.text = text

section

variable {t : Interner} {text : String} {s : Symbol}

/-- What is found is an entry of the table. -/
theorem get?_of_find? (hs : t.find? text = some s) : s.text = text ∧ t.get? s.id = some s := by
  obtain ⟨hmem, htext⟩ := (t.inStep text s).mp hs
  obtain ⟨i, hi⟩ := List.mem_iff_getElem?.mp hmem
  exact ⟨htext, t.numbered i s hi ▸ hi⟩

/-- An entry of the table is found by its text. -/
theorem find?_of_get? {i : Nat} (hs : t.get? i = some s) : t.find? s.text = some s ∧ s.id = i :=
  ⟨(t.inStep s.text s).mpr ⟨List.mem_of_getElem? hs, rfl⟩, t.numbered i s hs⟩

theorem find?_isSome_iff : (t.find? text).isSome = true ↔ text ∈ t.texts := by
  rw [Option.isSome_iff_exists, texts, List.mem_map]
  exact exists_congr (t.inStep text)

theorem intern_of_find? (hs : t.find? text = some s) : t.intern text = (s, t) := by
  unfold intern
  split
  · rename_i s' hs'
    rw [Option.some.inj (hs.symm.trans hs')]
  · rename_i hnone
    cases hs.symm.trans hnone

theorem size_eq (t : Interner) : t.size = t.texts.length :=
  (List.length_map _).symm

theorem texts_intern (t : Interner) (text : String) :
    (t.intern text).2.texts = if text ∈ t.texts then t.texts else t.texts ++ [text] := by
  unfold intern
  split
  · rename_i s hs
    rw [if_pos (find?_isSome_iff.mp (by rw [hs]; rfl))]
  · rename_i hnone
    rw [if_neg (find?_isSome_iff.not.mp (by simp [hnone]))]
    exact List.map_append

/-- What a call answers is an entry of the table after it. -/
theorem get?_of_perform {call : Call} (hs : (t.perform call).1 = some s) :
    (t.perform call).2.get? s.id = some s := by
  cases call with
  | intern text =>
      cases hs
      exact (get?_of_find? (find?_intern_self t text)).2
  | find text => exact (get?_of_find? hs).2

theorem entries_prefix_perform (t : Interner) (call : Call) :
    t.entries <+: (t.perform call).2.entries := by
  cases call with
  | intern text =>
      rw [perform, intern]
      split
      · exact List.prefix_refl _
      · exact List.prefix_append _ _
  | find text => exact List.prefix_refl _

theorem entries_prefix_run (t : Interner) (calls : List Call) :
    t.entries <+: (t.run calls).entries := by
  induction calls generalizing t with
  | nil => exact List.prefix_refl _
  | cons call calls ih => exact (t.entries_prefix_perform call).trans (ih _)

/-- An entry stays as it is, whatever is called. -/
theorem get?_run {i : Nat} (hs : t.get? i = some s) (calls : List Call) :
    (t.run calls).get? i = some s := by
  obtain ⟨rest, hrest⟩ := t.entries_prefix_run calls
  rw [get?, ← hrest, List.getElem?_append_left (List.getElem?_eq_some_iff.mp hs).1]
  exact hs

theorem find?_run (hs : t.find? text = some s) (calls : List Call) :
    (t.run calls).find? text = some s := by
  induction calls generalizing t with
  | nil => exact hs
  | cons call calls ih =>
      refine ih ?_
      cases call with
      | intern other => exact find?_intern hs other
      | find other => exact hs

end

/-! ## Reached tables -/

theorem table_append (calls later : List Call) :
    table (calls ++ later) = (table calls).run later :=
  List.foldl_append

theorem texts_table (calls : List Call) :
    (table calls).texts = Scope.distinct (interned calls) := by
  induction calls using List.reverseRecOn with
  | nil => rfl
  | append_singleton calls call ih =>
      rw [table_append, run, List.foldl_cons, List.foldl_nil, interned, List.filterMap_append]
      cases call with
      | intern text =>
          rw [perform, texts_intern, ih]
          simp only [Scope.mem_distinct]
          exact (Scope.distinct_append_singleton _ _).symm
      | find text =>
          rw [perform, ih]
          exact congrArg Scope.distinct (List.append_nil _).symm

theorem mem_texts_table {calls : List Call} {text : String} :
    text ∈ (table calls).texts ↔ text ∈ interned calls := by
  rw [texts_table, Scope.mem_distinct]

/-- Texts and numbers determine each other in every table; the order is that of the calls. -/
theorem numbers_table (calls : List Call) : (table calls).Numbers (interned calls) := by
  refine ⟨fun i => ?_, fun i s hs => (find?_of_get? hs).2, ?_, ?_, fun text => ?_⟩
  · simp [get?, size]
  · intro i j s s' hs hs' htext
    obtain ⟨hfound, rfl⟩ := find?_of_get? hs
    obtain ⟨hfound', rfl⟩ := find?_of_get? hs'
    rw [htext] at hfound
    rw [Option.some.inj (hfound.symm.trans hfound')]
  · intro i j s s' hs hs' hlt
    obtain ⟨hi, rfl⟩ := List.getElem?_eq_some_iff.mp hs
    obtain ⟨hj, rfl⟩ := List.getElem?_eq_some_iff.mp hs'
    have hordered := Scope.distinct_pairwise (interned calls)
    rw [← texts_table, texts, List.pairwise_map] at hordered
    exact List.pairwise_iff_getElem.mp hordered i j hi hj hlt
  · rw [← mem_texts_table, texts, List.mem_map]
    simp only [List.mem_iff_getElem?, get?]
    constructor
    · rintro ⟨s, ⟨i, hi⟩, htext⟩
      exact ⟨i, s, hi, htext⟩
    · rintro ⟨i, s, hi, htext⟩
      exact ⟨s, ⟨i, hi⟩, htext⟩

/-- A text that was interned is found with the symbol it got then. -/
theorem find?_table (earlier : List Call) (text : String) (later : List Call) :
    (table (earlier ++ .intern text :: later)).find? text =
      some ((table earlier).intern text).1 := by
  rw [table_append, run, List.foldl_cons]
  exact find?_run (find?_intern_self _ _) later

/-- Symbols of different texts have different numbers. -/
theorem id_intern_ne {t : Interner} {text other : String} {s : Symbol}
    (hs : t.find? other = some s) (hne : other ≠ text) : s.id ≠ (t.intern text).1.id := by
  intro hid
  obtain ⟨hother, hget⟩ := get?_of_find? (find?_intern hs text)
  obtain ⟨htext, hget'⟩ := get?_of_find? (find?_intern_self t text)
  rw [← hid, hget] at hget'
  exact hne (hother.symm.trans ((congrArg Symbol.text (Option.some.inj hget')).trans htext))

theorem size_intern (calls : List Call) (text : String) :
    ((table calls).intern text).2.size =
      (table calls).size + if text ∈ interned calls then 0 else 1 := by
  rw [size_eq, texts_intern]
  by_cases hmem : text ∈ interned calls
  · rw [if_pos (mem_texts_table.mpr hmem), if_pos hmem, size_eq, Nat.add_zero]
  · rw [if_neg (mem_texts_table.not.mpr hmem), if_neg hmem, size_eq, List.length_append]
    rfl

/-- The laws of interning, for the table after any calls. Its entries are numbered from zero on in
the order of first interning. Interning answers with a symbol of the text: the one it got when it
was interned before, and of another number than that of any other text; the table grows by one entry
if the text is new, and else by none. Looking up finds exactly what was interned, with that symbol,
and changes nothing. Whatever is called later, an entry and a symbol that was handed out stay as
they are. -/
theorem laws_of_table (calls : List Call) :
    (table calls).Numbers (interned calls) ∧
    (∀ text, ((table calls).intern text).1.text = text ∧
      (∀ earlier later, calls = earlier ++ .intern text :: later →
        ((table calls).intern text).1 = ((table earlier).intern text).1) ∧
      (∀ earlier other later, calls = earlier ++ .intern other :: later → other ≠ text →
        ((table earlier).intern other).1.id ≠ ((table calls).intern text).1.id) ∧
      ((table calls).intern text).2.size =
        (table calls).size + if text ∈ interned calls then 0 else 1) ∧
    (∀ text, (((table calls).find? text).isSome = true ↔ text ∈ interned calls) ∧
      (∀ earlier later, calls = earlier ++ .intern text :: later →
        (table calls).find? text = some ((table earlier).intern text).1) ∧
      ((table calls).perform (.find text)).2 = table calls) ∧
    (∀ call s later, ((table calls).perform call).1 = some s →
      (((table calls).perform call).2.run later).get? s.id = some s) ∧
    (∀ i s later, (table calls).get? i = some s → ((table calls).run later).get? i = some s) := by
  refine ⟨numbers_table calls, fun text => ⟨text_intern _ _, ?_, ?_, size_intern calls text⟩,
    fun text => ⟨?_, ?_, rfl⟩, fun call s later hs => get?_run (get?_of_perform hs) later,
    fun i s later hs => get?_run hs later⟩
  · rintro earlier later rfl
    rw [intern_of_find? (find?_table earlier text later)]
  · rintro earlier other later rfl hne
    exact id_intern_ne (find?_table earlier other later) hne
  · rw [find?_isSome_iff, mem_texts_table]
  · rintro earlier later rfl
    exact find?_table earlier text later

/-- Two texts are interned, one of them again after a lookup that fails. -/
theorem laws_of_repeated :
    let calls : List Call := [.intern "x", .find "z", .intern "y", .intern "x"]
    interned calls = ["x", "y", "x"] ∧ (table calls).texts = ["x", "y"] ∧
      ((table calls).intern "x").1 = ((table []).intern "x").1 ∧
      ((table [.intern "x", .find "z"]).intern "y").1.id ≠ ((table calls).intern "x").1.id ∧
      ((table calls).intern "z").2.size = (table calls).size + 1 ∧
      (table calls).find? "y" = some ⟨1, "y"⟩ ∧ ¬ ((table calls).find? "z").isSome = true ∧
      (((table calls).perform (.find "y")).2.run [.intern "z"]).get? 1 = some ⟨1, "y"⟩ ∧
      ((table calls).run [.intern "z"]).get? 0 = some ⟨0, "x"⟩ := by
  intro calls
  obtain ⟨-, hintern, hfind, hhanded, hstable⟩ := laws_of_table calls
  refine ⟨by decide, by decide, ?_, ?_, ?_, by decide, ?_, ?_, ?_⟩
  · exact (hintern "x").2.1 [] [.find "z", .intern "y", .intern "x"] rfl
  · exact (hintern "x").2.2.1 [.intern "x", .find "z"] "y" [.intern "x"] rfl (by decide)
  · exact ((hintern "z").2.2.2).trans (by decide)
  · exact (hfind "z").1.not.mpr (by decide)
  · exact hhanded (.find "y") ⟨1, "y"⟩ [.intern "z"] (by decide)
  · exact hstable 0 ⟨0, "x"⟩ [.intern "z"] (by decide)

end Cool.Interner
