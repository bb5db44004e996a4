/-! Interning: a table that gives each text a number on its first use. -/

namespace Cool

/-- A text together with its number in a table. -/
structure Symbol where
  id : Nat
  text : String
deriving DecidableEq, Repr

theorem Symbol.numbered_nil (i : Nat) (s : Symbol) :
    ([] : List Symbol)[i]? = some s → s.id = i := by
  simp

theorem Symbol.inStep_nil (text : String) (s : Symbol) :
    none = some s ↔ s ∈ [] ∧ s.text = text := by
  simp

/-- A table holds its symbols twice: by their texts, and in the order of their numbers. A new one
holds none. -/
structure Interner where
  byText : String → Option Symbol := fun _ => none
  entries : List Symbol := []
  numbered : ∀ (i : Nat) (s : Symbol), entries[i]? = some s → s.id = i := by
    exact Symbol.numbered_nil
  inStep : ∀ text s, byText text = some s ↔ s ∈ entries ∧ s.text = text := by
    exact Symbol.inStep_nil

namespace Interner

instance : Inhabited Interner := ⟨{}⟩

/-- The order of the symbols determines which of them a text has. -/
theorem ext_entries {t u : Interner} (h : t.entries = u.entries) : t = u := by
  obtain ⟨byText, entries, _, hstep⟩ := t
  obtain ⟨byText', _, _, hstep'⟩ := u
  subst h
  have hsame : byText = byText' :=
    funext fun text => Option.ext fun s => (hstep text s).trans (hstep' text s).symm
  subst hsame
  rfl

instance : DecidableEq Interner := fun t u =>
  decidable_of_iff (t.entries = u.entries) ⟨ext_entries, congrArg entries⟩

instance : Repr Interner := ⟨fun t => reprPrec t.entries⟩

def size (t : Interner) : Nat :=
  t.entries.length

/-- The interned texts in the order of their numbers. -/
def texts (t : Interner) : List String :=
  t.entries.map (·.text)

/-- The symbol of a text that was interned before. -/
def find? (t : Interner) (text : String) : Option Symbol :=
  t.byText text

/-- Adds a new text at the end of the table. -/
def push (t : Interner) (text : String) (hnew : t.find? text = none) : Interner where
  byText other := if other = text then some ⟨t.size, text⟩ else t.find? other
  entries := t.entries ++ [⟨t.size, text⟩]
  numbered := by
    intro i s hs
    rw [List.getElem?_append] at hs
    split at hs
    · exact t.numbered i s hs
    · rename_i hi
      obtain ⟨hlt, rfl⟩ := List.getElem?_eq_some_iff.mp hs
      have hzero : i - t.entries.length = 0 := Nat.lt_one_iff.mp hlt
      simp only [hzero, List.getElem_cons_zero, size]
      omega
  inStep := by
    intro other s
    rw [List.mem_append, List.mem_singleton, or_and_right, ← t.inStep]
    split
    · rename_i heq
      rw [heq, show t.byText text = none from hnew]
      constructor
      · rintro ⟨⟩
        exact .inr ⟨rfl, rfl⟩
      · rintro (hnone | ⟨rfl, -⟩)
        · cases hnone
        · rfl
    · rename_i hne
      refine (or_iff_left ?_).symm
      rintro ⟨rfl, heq⟩
      exact hne heq.symm

/-- The symbol of a text, which is added at the end of the table on its first use. -/
def intern (t : Interner) (text : String) : Symbol × Interner :=
  match h : t.find? text with
  | some s => (s, t)
  | none => (⟨t.size, text⟩, t.push text h)

/-- The table after a text was interned. -/
def add (t : Interner) (text : String) : Interner :=
  (t.intern text).2

/-- The symbol with a given number. -/
def get? (t : Interner) (id : Nat) : Option Symbol :=
  t.entries[id]?

end Interner

/-- The tables of one program: its identifiers, integer tokens and string literals. -/
structure Tables where
  names : Interner := {}
  ints : Interner := {}
  strings : Interner := {}
deriving DecidableEq, Repr, Inhabited

namespace Tables

def addName (t : Tables) (text : String) : Tables :=
  { t with names := t.names.add text }

def addInt (t : Tables) (token : String) : Tables :=
  { t with ints := t.ints.add token }

def addString (t : Tables) (text : String) : Tables :=
  { t with strings := t.strings.add text }

end Tables

end Cool
