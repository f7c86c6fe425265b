import CallSuite.Text.Basic
import Mathlib.Algebra.GroupWithZero.Nat

namespace CallSuite.Text

variable {ds : List Char}

theorem natOfDigits_eq (cs : List Char) : natOfDigits cs = Nat.ofDigitChars 10 cs 0 := rfl

theorem natOfDigits_toDigits (n : Nat) : natOfDigits (Nat.toDigits 10 n) = n := by
  rw [natOfDigits_eq]
  exact Nat.ofDigitChars_toDigits (by decide) (by decide)

theorem natOfDigits_concat (ds : List Char) (c : Char) :
    natOfDigits (ds ++ [c]) = 10 * natOfDigits ds + (c.toNat - '0'.toNat) :=
  List.foldl_append

-- Zeros at the end are powers of ten, and zeros in front are nothing.
theorem natOfDigits_append_zeros (ds : List Char) (k : Nat) :
    natOfDigits (ds ++ List.replicate k '0') = natOfDigits ds * 10 ^ k := by
  induction k with
  | zero => simp
  | succ k ih =>
      rw [List.replicate_succ', ← List.append_assoc, natOfDigits_concat, ih, Nat.pow_succ]
      have hzero : '0'.toNat - '0'.toNat = 0 := rfl
      rw [hzero, Nat.add_zero, Nat.mul_comm, Nat.mul_assoc]

theorem natOfDigits_zeros_append (ds : List Char) (k : Nat) :
    natOfDigits (List.replicate k '0' ++ ds) = natOfDigits ds := by
  have hzeros : natOfDigits (List.replicate k '0') = 0 := by
    have happend := natOfDigits_append_zeros [] k
    simpa [natOfDigits] using happend
  rw [natOfDigits_eq, Nat.ofDigitChars_append, ← natOfDigits_eq, hzeros, natOfDigits_eq]

theorem isDigit_toDigits (n : Nat) : ∀ c ∈ Nat.toDigits 10 n, c.isDigit :=
  fun _ hc => Nat.isDigit_of_mem_toDigits (by decide) (by decide) hc

-- Only zero starts with the digit zero.
theorem exists_toDigits_eq_cons {n : Nat} (hn : 0 < n) :
    ∃ c cs, Nat.toDigits 10 n = c :: cs ∧ c ≠ '0' := by
  induction n using Nat.base_induction 10 (by decide) with
  | single m hm =>
      refine ⟨Nat.digitChar m, [], Nat.toDigits_of_lt_base hm, ?_⟩
      decide +revert
  | digit m k hk hm ih =>
      obtain ⟨c, cs, hdigits, hc⟩ := ih hm
      refine ⟨c, cs ++ Nat.toDigits 10 k, ?_, hc⟩
      rw [← Nat.toDigits_append_toDigits (by decide) hm hk, hdigits, List.cons_append]

theorem le_ofDigitChars (cs : List Char) (n : Nat) : n ≤ Nat.ofDigitChars 10 cs n := by
  rw [Nat.ofDigitChars_eq_ofDigitChars_zero]
  exact Nat.le_add_right_of_le (Nat.le_mul_of_pos_left n (Nat.pow_pos (by decide)))

theorem readInt?_signed (negative : Bool) (hne : ds ≠ []) (hds : ∀ c ∈ ds, c.isDigit) :
    readInt? ((if negative then '-' else '+') :: ds) =
      some (applySign negative (natOfDigits ds)) := by
  have hsign : splitSign ((if negative then '-' else '+') :: ds) = (negative, ds) := by
    cases negative <;> rfl
  have hall : ds ≠ [] ∧ ds.all Char.isDigit := ⟨hne, List.all_eq_true.mpr hds⟩
  rw [readInt?, hsign]
  exact if_pos hall

-- What numbers are written with, in whole numbers and in others.
def IsNumeralChar (c : Char) : Bool := c.isAlphanum || c = '.' || c = '-' || c = '+'

theorem isNumeralChar_of_isDigit {c : Char} (h : c.isDigit) : IsNumeralChar c := by
  simp [IsNumeralChar, Char.isAlphanum, h]

theorem isUpper_iff {c : Char} : c.isUpper ↔ 'A'.val ≤ c.val ∧ c.val ≤ 'Z'.val := decide_eq_true_iff

theorem isLower_iff {c : Char} : c.isLower ↔ 'a'.val ≤ c.val ∧ c.val ≤ 'z'.val := by
  have h : c.isLower = (decide ('a'.val ≤ c.val) && decide (c.val ≤ 'z'.val)) := rfl
  rw [h, Bool.and_eq_true, decide_eq_true_iff, decide_eq_true_iff]

theorem isAlpha_iff {c : Char} : c.isAlpha ↔ c.isUpper ∨ c.isLower := by
  have h : c.isAlpha = (c.isUpper || c.isLower) := rfl
  rw [h, Bool.or_eq_true]

theorem toNat_of_isNumeralChar {c : Char} (h : IsNumeralChar c) :
    43 ≤ c.toNat ∧ c.toNat ≤ 122 := by
  simp only [IsNumeralChar, Char.isAlphanum, Bool.or_eq_true, isAlpha_iff, isUpper_iff, isLower_iff,
    Char.isDigit, Bool.and_eq_true, decide_eq_true_eq, ge_iff_le] at h
  rcases h with ((((⟨hlow, hhigh⟩ | ⟨hlow, hhigh⟩) | ⟨hlow, hhigh⟩) | rfl) | rfl) | rfl
  · exact ⟨Nat.le_trans (by decide) hlow, Nat.le_trans hhigh (by decide)⟩
  · exact ⟨Nat.le_trans (by decide) hlow, Nat.le_trans hhigh (by decide)⟩
  · exact ⟨Nat.le_trans (by decide) hlow, Nat.le_trans hhigh (by decide)⟩
  · decide
  · decide
  · decide

theorem isNumeralChar_of_sign {c : Char} (h : c = '-' ∨ c = '+') : IsNumeralChar c := by
  rcases h with rfl | rfl <;> rfl

theorem mem_splitSign {cs : List Char} {c : Char} (hc : c ∈ cs) :
    (c = '-' ∨ c = '+') ∨ c ∈ (splitSign cs).2 := by
  unfold splitSign
  split
  next =>
    rcases List.mem_cons.mp hc with rfl | hc
    · exact .inl (.inl rfl)
    · exact .inr hc
  next =>
    rcases List.mem_cons.mp hc with rfl | hc
    · exact .inl (.inr rfl)
    · exact .inr hc
  next => exact .inr hc

theorem sign_or_isDigit_of_readInt? {cs : List Char} {i : Int} (h : readInt? cs = some i) :
    ∀ c ∈ cs, (c = '-' ∨ c = '+') ∨ c.isDigit := by
  intro c hc
  simp only [readInt?, Option.ite_none_right_eq_some, List.all_eq_true] at h
  exact (mem_splitSign hc).imp_right (h.1.2 c)

theorem isNumeralChar_of_readInt? {cs : List Char} {i : Int} (h : readInt? cs = some i) :
    ∀ c ∈ cs, IsNumeralChar c := fun c hc =>
  (sign_or_isDigit_of_readInt? h c hc).elim isNumeralChar_of_sign isNumeralChar_of_isDigit

theorem splitSign_digits (hds : ∀ c ∈ ds, c.isDigit) : splitSign ds = (false, ds) := by
  unfold splitSign
  split
  next => exact absurd (hds '-' (by simp)) (by decide)
  next => exact absurd (hds '+' (by simp)) (by decide)
  next => rfl

theorem readInt?_digits (hne : ds ≠ []) (hds : ∀ c ∈ ds, c.isDigit) :
    readInt? ds = some (natOfDigits ds) := by
  have hall : ds ≠ [] ∧ ds.all Char.isDigit := ⟨hne, List.all_eq_true.mpr hds⟩
  rw [readInt?, splitSign_digits hds]
  exact if_pos hall

-- An integer is written with a sign only where it is negative.
theorem toList_toString_ofNat (n : Nat) :
    (toString (Int.ofNat n)).toList = Nat.toDigits 10 n := Nat.toList_repr

theorem toList_toString_negSucc (n : Nat) :
    (toString (Int.negSucc n)).toList = '-' :: Nat.toDigits 10 (n + 1) := by
  rw [Int.toString_eq_repr, Int.repr, String.toList_append, Nat.toList_repr]
  rfl

theorem exists_toString_eq_cons (i : Int) :
    ∃ c cs, (toString i).toList = c :: cs ∧ (c = '-' ∨ c.isDigit) := by
  cases i with
  | ofNat n =>
      rw [toList_toString_ofNat]
      cases hds : Nat.toDigits 10 n with
      | nil => exact absurd hds Nat.toDigits_ne_nil
      | cons c cs => exact ⟨c, cs, rfl, .inr (isDigit_toDigits n c (by simp [hds]))⟩
  | negSucc n => exact ⟨'-', _, toList_toString_negSucc n, .inl rfl⟩

theorem readInt?_toString (i : Int) : readInt? (toString i).toList = some i := by
  cases i with
  | ofNat n =>
      have hread := readInt?_digits Nat.toDigits_ne_nil (isDigit_toDigits n)
      rw [natOfDigits_toDigits] at hread
      rw [toList_toString_ofNat]
      exact hread
  | negSucc n =>
      have hread := readInt?_signed true Nat.toDigits_ne_nil (isDigit_toDigits (n + 1))
      rw [natOfDigits_toDigits] at hread
      rw [toList_toString_negSucc]
      exact hread

end CallSuite.Text
