import CallSuite.Binary64.Rounding
import Mathlib.Algebra.GroupWithZero.Nat

namespace CallSuite.Binary64

theorem unitsPerOne_eq : unitsPerOne = 2 ^ 1074 := by
  have hshift : ∀ n, 1 <<< n = 2 ^ n := Nat.one_shiftLeft
  exact hshift 1074

theorem unitsPerOne_pos : 0 < unitsPerOne := by decide

-- A significand and the power of two that it is taken with. The leading bit may be missing only
-- where the power is the least.
structure Scaled (q d : Nat) : Prop where
  lt : q < 2 * leadingBit
  leading : leadingBit ≤ q ∨ d = 0
  le : d ≤ 2045

variable {q d : Nat}

theorem Scaled.lt_infinity (h : Scaled q d) : d * leadingBit + q < infinity := by
  have hq := h.lt
  have hd := h.le
  simp only [leadingBit, infinity] at *
  omega

-- A significand without the leading bit stands in the least exponent.
theorem unitsOf_significand (hq : q < 2 * leadingBit) (hleading : leadingBit ≤ q ∨ d = 0) :
    unitsOf (d * leadingBit + q) = q * 2 ^ d := by
  unfold unitsOf
  by_cases hbit : leadingBit ≤ q
  · have hnot : ¬ d * leadingBit + q < leadingBit := by omega
    have hmod : (d * leadingBit + q) % leadingBit = q - leadingBit := by
      simp only [leadingBit] at *
      omega
    have hdiv : (d * leadingBit + q) / leadingBit - 1 = d := by
      simp only [leadingBit] at *
      omega
    rw [if_neg hnot, hmod, hdiv, Nat.add_sub_cancel' hbit, Nat.shiftLeft_eq]
  · have hd : d = 0 := hleading.resolve_left hbit
    subst hd
    rw [if_pos (by omega)]
    omega

theorem Scaled.unitsOf_eq (h : Scaled q d) : unitsOf (d * leadingBit + q) = q * 2 ^ d :=
  unitsOf_significand h.lt h.leading

theorem Scaled.log2_sub (h : Scaled q d) : (q * 2 ^ d).log2 - 52 = d := by
  have hq := h.lt
  by_cases hleading : leadingBit ≤ q
  · have hpos : q * 2 ^ d ≠ 0 := by
      have := Nat.two_pow_pos d
      have : 0 < q * 2 ^ d := Nat.mul_pos (by simp only [leadingBit] at hleading; omega) this
      omega
    have hlog : (q * 2 ^ d).log2 = 52 + d := by
      rw [Nat.log2_eq_iff hpos]
      constructor
      · rw [Nat.pow_add]
        exact Nat.mul_le_mul_right _ hleading
      · rw [show 52 + d + 1 = 53 + d by omega, Nat.pow_add]
        exact Nat.mul_lt_mul_of_pos_right hq (Nat.two_pow_pos d)
    omega
  · have hd : d = 0 := h.leading.resolve_left hleading
    subst hd
    by_cases hzero : q = 0
    · subst hzero
      rfl
    · have hlog : (q * 2 ^ 0).log2 < 53 := by
        rw [Nat.log2_lt (by omega)]
        simp only [leadingBit] at hq
        omega
      omega

-- What has a significand is not rounded.
theorem Scaled.roundUnits_eq (h : Scaled q d) :
    roundUnits (q * 2 ^ d) 1 = d * leadingBit + q := by
  have hpos := Nat.two_pow_pos d
  have hnearest : nearest (q * 2 ^ d) (1 <<< d) = q := by
    rw [Nat.one_shiftLeft, nearest, Nat.mul_div_cancel _ hpos, Nat.mul_mod_left]
    rw [if_pos (.inl (by omega))]
  unfold roundUnits
  dsimp only
  rw [Nat.div_one, h.log2_sub, hnearest]
  exact Nat.min_eq_left (Nat.le_of_lt h.lt_infinity)

-- A whole number of at most 53 bits has a significand, and so has the next one.
theorem exists_scaled {n e : Nat} (hn : n ≤ 2 ^ 53) (hlow : 52 ≤ e) (hhigh : e ≤ 2044) :
    ∃ q d, Scaled q d ∧ n * 2 ^ e = q * 2 ^ d := by
  by_cases hzero : n = 0
  · refine ⟨0, 0, ⟨by decide, .inr rfl, by decide⟩, ?_⟩
    rw [hzero, Nat.zero_mul, Nat.zero_mul]
  by_cases htop : n = 2 ^ 53
  · refine ⟨2 ^ 52, e + 1, ⟨by decide, .inl (by decide), by omega⟩, ?_⟩
    rw [htop, ← Nat.pow_add, ← Nat.pow_add]
    congr 1
    omega
  · have hlog : n.log2 < 53 := (Nat.log2_lt hzero).mpr (by omega)
    have hle : 2 ^ n.log2 ≤ n := Nat.log2_self_le hzero
    have hlt : n < 2 ^ (n.log2 + 1) := Nat.lt_log2_self
    refine ⟨n * 2 ^ (52 - n.log2), e - 52 + n.log2, ⟨?_, .inl ?_, by omega⟩, ?_⟩
    · calc n * 2 ^ (52 - n.log2) < 2 ^ (n.log2 + 1) * 2 ^ (52 - n.log2) :=
            Nat.mul_lt_mul_of_pos_right hlt (Nat.two_pow_pos _)
        _ = 2 ^ 53 := by
            rw [← Nat.pow_add]
            congr 1
            omega
    · calc leadingBit = 2 ^ n.log2 * 2 ^ (52 - n.log2) := by
            rw [← Nat.pow_add, show n.log2 + (52 - n.log2) = 52 by omega]
            rfl
        _ ≤ n * 2 ^ (52 - n.log2) := Nat.mul_le_mul_right _ hle
    · rw [Nat.mul_assoc, ← Nat.pow_add]
      congr 2
      omega

section Sign

variable {m : Nat} {negative : Bool}

theorem toNat_ofMagnitude (hm : m < signBit) :
    (ofMagnitude negative m).bits.toNat = if negative then signBit + m else m := by
  refine UInt64.toNat_ofNat_of_lt' ?_
  simp only [signBit, UInt64.size] at *
  split <;> omega

theorem magnitude_ofMagnitude (hm : m < signBit) : (ofMagnitude negative m).magnitude = m := by
  rw [magnitude, toNat_ofMagnitude hm]
  simp only [signBit] at *
  split <;> omega

theorem isNegative_ofMagnitude (hm : m < signBit) :
    (ofMagnitude negative m).isNegative = negative := by
  rw [isNegative, toNat_ofMagnitude hm]
  cases negative <;> simp [signBit] at *
  omega

end Sign

-- An integer is read back as the whole number that its units are rounded to, with its sign.
theorem toInt?_ofInt_of_scaled {i : Int} {n : Nat} (h : Scaled q d)
    (hround : roundRatio i.natAbs 1 = d * leadingBit + q) (hunits : n * unitsPerOne = q * 2 ^ d) :
    (ofInt i).toInt? = some (if i < 0 then -(n : Int) else n) := by
  have hfinite := h.lt_infinity
  have hsign : d * leadingBit + q < signBit := by
    simp only [infinity, signBit] at *
    omega
  have hmagnitude : (ofInt i).magnitude = d * leadingBit + q := by
    rw [ofInt, hround, magnitude_ofMagnitude hsign]
  have hnegative : (ofInt i).isNegative = decide (i < 0) := by
    rw [ofInt, hround, isNegative_ofMagnitude hsign]
  have hwhole : (ofInt i).units = n * unitsPerOne := by
    rw [units, hmagnitude, h.unitsOf_eq, hunits]
  have hisFinite : (ofInt i).isFinite = true := by
    rw [isFinite, hmagnitude]
    exact decide_eq_true hfinite
  unfold toInt?
  rw [hwhole, if_pos ⟨hisFinite, Nat.mul_mod_left _ _⟩, hnegative,
    Nat.mul_div_cancel _ unitsPerOne_pos]
  simp only [decide_eq_true_eq]

-- Whole numbers of at most 53 bits are not rounded.
theorem toInt?_ofInt {i : Int} (hi : i.natAbs ≤ 2 ^ 53) : (ofInt i).toInt? = some i := by
  obtain ⟨q, d, hscaled, hunits⟩ := exists_scaled (e := 1074) hi (by omega) (by omega)
  rw [← unitsPerOne_eq] at hunits
  have hround : roundRatio i.natAbs 1 = d * leadingBit + q := by
    rw [roundRatio, hunits, hscaled.roundUnits_eq]
  rw [toInt?_ofInt_of_scaled hscaled hround hunits, Option.some.injEq]
  split <;> omega

end CallSuite.Binary64
