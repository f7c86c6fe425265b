import CallSuite.Json.Number
import CallSuite.Proofs.Text.Numeral
import Mathlib.Data.List.TakeWhile

namespace CallSuite.JsonNumber

open Text

section Digits

variable {ds rest : List Char} {n : Nat}

-- The whole numbers that are kept exactly.
def IsWord64 (i : Int) : Prop := -0x8000000000000000 ≤ i ∧ i < 0x10000000000000000

instance (i : Int) : Decidable (IsWord64 i) := inferInstanceAs (Decidable (_ ∧ _))

-- A number goes on with one of these.
def Continues (c : Char) : Bool := c.isDigit || c = '.' || c = 'e' || c = 'E'

theorem takeWhile_digits (hds : ∀ c ∈ ds, c.isDigit) (hrest : ∀ c ∈ rest.head?, ¬ Continues c) :
    (ds ++ rest).takeWhile Char.isDigit = ds ∧ (ds ++ rest).dropWhile Char.isDigit = rest := by
  rw [List.takeWhile_append_of_pos hds, List.dropWhile_append_of_pos hds]
  cases rest with
  | nil => simp
  | cons c rest =>
      have hc : ¬ c.isDigit := fun h => hrest c rfl (by simp [Continues, h])
      simp [List.takeWhile_cons_of_neg hc, List.dropWhile_cons_of_neg hc]

theorem takeWhole?_toDigits (n : Nat) (hrest : ∀ c ∈ rest.head?, ¬ Continues c) :
    takeWhole? (Nat.toDigits 10 n ++ rest) = some (Nat.toDigits 10 n, rest) := by
  obtain ⟨htake, hdrop⟩ := takeWhile_digits (isDigit_toDigits n) hrest
  unfold takeWhole?
  split
  next cs heq =>
    rcases Nat.eq_zero_or_pos n with rfl | hn
    · simp at heq
      simp [heq]
    · obtain ⟨c, ds, hdigits, hc⟩ := exists_toDigits_eq_cons hn
      rw [hdigits] at heq
      cases heq
      exact absurd rfl hc
  next =>
    rw [htake, hdrop]
    simp

-- A numeral that fits is taken to its end, as is each of its beginnings.
theorem takeFitting_eq (hfits : Nat.ofDigitChars 10 ds n < 0x10000000000000000) :
    takeFitting n ds = (Nat.ofDigitChars 10 ds n, []) := by
  induction ds generalizing n with
  | nil => rfl
  | cons c ds ih =>
      have hstep : natOfDigits [c] + 10 * n = 10 * n + (c.toNat - '0'.toNat) := by
        simp [natOfDigits, Nat.add_comm]
      rw [Nat.ofDigitChars_cons] at hfits ⊢
      have hle := le_ofDigitChars ds (10 * n + (c.toNat - '0'.toNat))
      rw [takeFitting, hstep, if_neg (by omega), ih hfits]

theorem takeFraction?_of_stop (hrest : ∀ c ∈ rest.head?, ¬ Continues c) :
    takeFraction? rest = some ([], rest) := by
  unfold takeFraction?
  split
  next => exact absurd rfl (hrest '.' rfl)
  next => rfl

theorem takeExponent?_of_stop (hrest : ∀ c ∈ rest.head?, ¬ Continues c) :
    takeExponent? rest = some (none, rest) := by
  unfold takeExponent?
  split
  next => rfl
  next c cs =>
    have hc : ¬ (c = 'e' ∨ c = 'E') := fun h => hrest c rfl (by rcases h with rfl | rfl <;> rfl)
    rw [if_neg hc]

theorem takeMinus_toDigits (n : Nat) (rest : List Char) :
    takeMinus (Nat.toDigits 10 n ++ rest) = (false, Nat.toDigits 10 n ++ rest) := by
  unfold takeMinus
  split
  next cs heq =>
    have hmem : '-' ∈ Nat.toDigits 10 n := by
      cases hds : Nat.toDigits 10 n with
      | nil => exact absurd hds Nat.toDigits_ne_nil
      | cons c ds =>
          rw [hds] at heq
          cases heq
          simp
    exact absurd (isDigit_toDigits n '-' hmem) (by decide)
  next => rfl

theorem ofParts?_toDigits (negative : Bool) (hn : n < 0x10000000000000000) :
    ofParts? negative (Nat.toDigits 10 n) [] none = whole? negative n 0 := by
  have hvalue : Nat.ofDigitChars 10 (Nat.toDigits 10 n) 0 = n := Nat.ofDigitChars_ten_toDigits
  have htake : takeFitting 0 (Nat.toDigits 10 n) = (n, []) := by
    rw [takeFitting_eq (by rwa [hvalue]), hvalue]
  simp [ofParts?, htake]

theorem whole?_positive (n : Nat) : whole? false n 0 = some (.integer (Int.ofNat n)) :=
  if_pos ⟨rfl, rfl⟩

theorem whole?_negative (hn : n + 1 ≤ 0x8000000000000000) :
    whole? true (n + 1) 0 = some (.integer (Int.negSucc n)) := by
  rw [whole?, if_neg fun h => Bool.noConfusion h.2, if_pos ⟨rfl, Nat.succ_pos n, hn⟩]
  rfl

theorem take?_of_takeMinus {cs : List Char} {negative : Bool} {number : JsonNumber}
    (hminus : takeMinus cs = (negative, Nat.toDigits 10 n ++ rest))
    (hrest : ∀ c ∈ rest.head?, ¬ Continues c) (hn : n < 0x10000000000000000)
    (hwhole : whole? negative n 0 = some number) : take? cs = some (number, rest) := by
  simp [take?, hminus, takeWhole?_toDigits n hrest, takeFraction?_of_stop hrest,
    takeExponent?_of_stop hrest, ofParts?_toDigits negative hn, hwhole]

-- A whole number stops where no part of a number follows.
theorem take?_integer {i : Int} (hi : IsWord64 i) (hrest : ∀ c ∈ rest.head?, ¬ Continues c) :
    take? ((toString i).toList ++ rest) = some (.integer i, rest) := by
  obtain ⟨hlow, hhigh⟩ := hi
  cases i with
  | ofNat n =>
      rw [toList_toString_ofNat]
      have hn : n < 0x10000000000000000 := Int.ofNat_lt.mp hhigh
      exact take?_of_takeMinus (takeMinus_toDigits n rest) hrest hn (whole?_positive n)
  | negSucc n =>
      rw [toList_toString_negSucc]
      have hn : n + 1 ≤ 0x8000000000000000 := by omega
      exact take?_of_takeMinus rfl hrest (Nat.lt_of_le_of_lt hn (by decide)) (whole?_negative hn)

end Digits

end CallSuite.JsonNumber
