import Cool.Literal
import Mathlib.Data.Nat.Basic
import Mathlib.Tactic.Common

/-! The tokens that denote integers. -/

namespace Cool.Literal

/-- Decimal digits after an optional sign, and the integer they stand for. -/
def Spells (token : String) (n : Int32) : Prop :=
  ∃ ds : List Char, ds ≠ [] ∧ (∀ c ∈ ds, c.isDigit = true) ∧
    ((token.toList = ds ∨ token.toList = '+' :: ds) ∧ n.toInt = Nat.ofDigitChars 10 ds 0 ∨
      token.toList = '-' :: ds ∧ n.toInt = -(Nat.ofDigitChars 10 ds 0 : Int))

theorem le_ofDigitChars (cs : List Char) (n : Nat) : n ≤ Nat.ofDigitChars 10 cs n := by
  induction cs generalizing n with
  | nil => exact Nat.le_refl n
  | cons c cs ih =>
      rw [Nat.ofDigitChars_cons]
      have hstep := ih (10 * n + (c.toNat - '0'.toNat))
      omega

/-- Reading digits stops early only where the whole value is beyond 32 bits. -/
theorem digits_eq_ok_iff {token : String} {cs : List Char} {n v : Nat} (hn : n < 0x100000000) :
    digits token cs n = .ok v ↔
      (∀ c ∈ cs, c.isDigit = true) ∧ v = Nat.ofDigitChars 10 cs n ∧ v < 0x100000000 := by
  induction cs generalizing n with
  | nil =>
      simp only [digits, Except.ok.injEq, Nat.ofDigitChars_nil]
      grind
  | cons c cs ih =>
      have hvalue : n * 10 + (c.toNat - 48) = 10 * n + (c.toNat - '0'.toNat) := by
        rw [Nat.mul_comm]
        rfl
      rw [digits, Nat.ofDigitChars_cons, ← hvalue]
      by_cases hc : c.isDigit = true
      · rw [if_pos hc]
        dsimp only
        split
        · rename_i hlt
          rw [ih hlt]
          simp [hc]
        · rename_i hge
          have hle := le_ofDigitChars cs (n * 10 + (c.toNat - 48))
          constructor
          · intro h
            cases h
          · rintro ⟨-, hv, hlt⟩
            omega
      · rw [if_neg hc]
        simp [hc]

theorem magnitude_eq_ok_iff {token : String} {cs : List Char} {v : Nat} :
    magnitude token cs = .ok v ↔
      cs ≠ [] ∧ (∀ c ∈ cs, c.isDigit = true) ∧ v = Nat.ofDigitChars 10 cs 0 ∧ v < 0x100000000 := by
  cases cs with
  | nil => simp [magnitude]
  | cons c cs => simp [magnitude, digits_eq_ok_iff]

/-- Reading a magnitude and giving it a sign, if it is in range. -/
theorem signed_eq_ok_iff {token : String} {cs : List Char} {n : Int32} {inRange : Nat → Prop}
    [DecidablePred inRange] {sign : Nat → Int}
    (hsign : ∀ v, inRange v ↔ -0x80000000 ≤ sign v ∧ sign v < 0x80000000)
    (hsmall : ∀ v, inRange v → v < 0x100000000) :
    (do
      let v ← magnitude token cs
      if inRange v then return Int32.ofInt (sign v) else throw (LiteralError.outOfRange token) :
        Except LiteralError Int32) = .ok n ↔
      cs ≠ [] ∧ (∀ c ∈ cs, c.isDigit = true) ∧ n.toInt = sign (Nat.ofDigitChars 10 cs 0) := by
  constructor
  · intro hn
    cases hmagnitude : magnitude token cs with
    | error e =>
        rw [hmagnitude] at hn
        cases hn
    | ok v =>
        obtain ⟨hcs, hdigits, hv, -⟩ := magnitude_eq_ok_iff.mp hmagnitude
        refine ⟨hcs, hdigits, ?_⟩
        rw [hmagnitude] at hn
        change (if inRange v then _ else _) = _ at hn
        split at hn
        · rename_i hrange
          obtain ⟨hlow, hhigh⟩ := (hsign v).mp hrange
          cases hn
          rw [← hv, Int32.toInt_ofInt_of_le hlow hhigh]
        · cases hn
  · rintro ⟨hcs, hdigits, hn⟩
    have hrange : inRange (Nat.ofDigitChars 10 cs 0) :=
      (hsign _).mpr (hn ▸ ⟨n.le_toInt, n.toInt_lt⟩)
    rw [magnitude_eq_ok_iff.mpr ⟨hcs, hdigits, rfl, hsmall _ hrange⟩]
    change (if inRange _ then _ else _) = _
    rw [if_pos hrange, ← hn, Int32.ofInt_toInt]
    rfl

theorem parse_eq_ok_iff {token : String} {n : Int32} : parse token = .ok n ↔ Spells token n := by
  unfold parse Spells
  have hplus : ∀ v : Nat, v < 0x80000000 ↔ -2 ^ 31 ≤ (v : Int) ∧ (v : Int) < 2 ^ 31 := by
    intro v
    omega
  have hminus : ∀ v : Nat, v ≤ 0x80000000 ↔ -2 ^ 31 ≤ -(v : Int) ∧ -(v : Int) < 2 ^ 31 := by
    intro v
    omega
  split
  · rename_i rest htoken
    rw [signed_eq_ok_iff hminus (fun v hv => by omega), htoken]
    constructor
    · rintro ⟨hne, hdigits, hn⟩
      exact ⟨rest, hne, hdigits, Or.inr ⟨rfl, hn⟩⟩
    · rintro ⟨ds, hne, hdigits, ⟨hds | hds, hn⟩ | ⟨hds, hn⟩⟩
      · exact absurd (hdigits '-' (hds ▸ List.mem_cons_self)) (by decide)
      · exact absurd (List.cons.inj hds).1 (by decide)
      · cases hds
        exact ⟨hne, hdigits, hn⟩
  · rename_i rest htoken
    rw [signed_eq_ok_iff hplus (fun v hv => by omega), htoken]
    constructor
    · rintro ⟨hne, hdigits, hn⟩
      exact ⟨rest, hne, hdigits, Or.inl ⟨Or.inr rfl, hn⟩⟩
    · rintro ⟨ds, hne, hdigits, ⟨hds | hds, hn⟩ | ⟨hds, hn⟩⟩
      · exact absurd (hdigits '+' (hds ▸ List.mem_cons_self)) (by decide)
      · cases hds
        exact ⟨hne, hdigits, hn⟩
      · exact absurd (List.cons.inj hds).1 (by decide)
  · rename_i hnotMinus hnotPlus
    rw [signed_eq_ok_iff hplus (fun v hv => by omega)]
    constructor
    · rintro ⟨hne, hdigits, hn⟩
      exact ⟨_, hne, hdigits, Or.inl ⟨Or.inl rfl, hn⟩⟩
    · rintro ⟨ds, hne, hdigits, ⟨hds | hds, hn⟩ | ⟨hds, hn⟩⟩
      · cases hds
        exact ⟨hne, hdigits, hn⟩
      · exact absurd hds (hnotPlus ds)
      · exact absurd hds (hnotMinus ds)

theorem Spells.unique {token : String} {n k : Int32} (hn : Spells token n) (hk : Spells token k) :
    n = k :=
  Except.ok.inj ((parse_eq_ok_iff.mpr hn).symm.trans (parse_eq_ok_iff.mpr hk))

end Cool.Literal
