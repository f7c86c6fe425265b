import CallSuite.Proofs.Binary64.Exact
import CallSuite.Proofs.Value.Order
import Mathlib.Algebra.Order.Field.Power
import Mathlib.Algebra.Order.Field.Rat
import Mathlib.Algebra.Order.Ring.Cast
import Mathlib.Order.WithBot
import Mathlib.Tactic.FieldSimp
import Mathlib.Tactic.Linarith
import Mathlib.Tactic.Ring

namespace CallSuite.Binary64

-- Eleven bits of exponent stand above 52 bits of fraction. The least exponent goes without the
-- leading one.
def absValue (m : Nat) : ℚ :=
  let fraction : ℚ := (m % leadingBit : Nat) / 2 ^ 52
  if m / leadingBit = 0 then fraction * 2 ^ (-1022 : ℤ)
  else (1 + fraction) * 2 ^ ((m / leadingBit : Nat) - 1023 : ℤ)

-- The number that `x` denotes, where it is finite.
def value (x : Binary64) : ℚ := if x.isNegative then -absValue x.magnitude else absValue x.magnitude

-- The same with the infinities at both ends.
def number? (x : Binary64) : Option (WithBot (WithTop ℚ)) :=
  if x.isNaN then none
  else if x.isFinite then some (x.value : WithTop ℚ)
  else some (if x.isNegative then ⊥ else ⊤)

def negativeZero : Binary64 := ⟨0x8000000000000000⟩

def negativeInfinity : Binary64 := ⟨0xfff0000000000000⟩

section Magnitudes

variable {m n : Nat}

theorem absValue_eq (m : Nat) : absValue m = unitsOf m / unitsPerOne := by
  have hbit : (leadingBit : ℚ) = 2 ^ 52 := by norm_num [leadingBit]
  have hunit : ((unitsPerOne : Nat) : ℚ) = 2 ^ (1074 : ℤ) := by
    rw [unitsPerOne_eq, Nat.cast_pow]
    exact (zpow_natCast 2 1074).symm
  rw [hunit]
  unfold absValue unitsOf
  dsimp only
  by_cases hm : m < leadingBit
  · have hexponent : m / leadingBit = 0 := Nat.div_eq_of_lt hm
    have hscale : (2 : ℚ) ^ (1074 : ℤ) = 2 ^ 52 * 2 ^ (1022 : ℤ) := by
      rw [← zpow_natCast, ← zpow_add₀ two_ne_zero]
      rfl
    rw [if_pos hm, if_pos hexponent, Nat.mod_eq_of_lt hm, hscale, zpow_neg]
    field_simp
  · have hexponent : m / leadingBit ≠ 0 := by
      simp only [leadingBit] at *
      omega
    obtain ⟨e, he⟩ := Nat.exists_eq_succ_of_ne_zero hexponent
    have hscale : (2 : ℚ) ^ (((e + 1 : Nat) : ℤ) - 1023) * 2 ^ (1074 : ℤ) = 2 ^ 52 * 2 ^ e := by
      rw [← zpow_natCast, ← zpow_natCast, ← zpow_add₀ two_ne_zero, ← zpow_add₀ two_ne_zero]
      congr 1
      omega
    rw [if_neg hm, if_neg hexponent, he, Nat.shiftLeft_eq, Nat.succ_sub_one,
      eq_div_iff (zpow_ne_zero _ two_ne_zero), mul_assoc, hscale]
    push_cast
    rw [hbit]
    field_simp

theorem unitsOf_lt_succ (m : Nat) : unitsOf m < unitsOf (m + 1) := by
  unfold unitsOf
  by_cases hm : m + 1 < leadingBit
  · rw [if_pos hm, if_pos (by omega)]
    omega
  rw [if_neg hm]
  have hpos := Nat.two_pow_pos (m / leadingBit - 1)
  -- the last magnitude without the leading bit
  by_cases hlast : m < leadingBit
  · obtain rfl : m = leadingBit - 1 := by omega
    decide
  rw [if_neg hlast, Nat.shiftLeft_eq, Nat.shiftLeft_eq]
  -- a full fraction is carried into the exponent, and the unit gets twice as large
  by_cases hcarry : m % leadingBit = leadingBit - 1
  · have hmod : (m + 1) % leadingBit = 0 := by
      simp only [leadingBit] at *
      omega
    have hdiv : (m + 1) / leadingBit - 1 = m / leadingBit - 1 + 1 := by
      simp only [leadingBit] at *
      omega
    calc (leadingBit + m % leadingBit) * 2 ^ (m / leadingBit - 1)
      _ < 2 * leadingBit * 2 ^ (m / leadingBit - 1) := by
          refine Nat.mul_lt_mul_of_pos_right ?_ hpos
          have : 0 < leadingBit := by decide
          omega
      _ = (leadingBit + (m + 1) % leadingBit) * 2 ^ ((m + 1) / leadingBit - 1) := by
          rw [hmod, hdiv, Nat.pow_succ]
          ring
  · have hmod : (m + 1) % leadingBit = m % leadingBit + 1 := by
      simp only [leadingBit] at *
      omega
    have hdiv : (m + 1) / leadingBit = m / leadingBit := by
      simp only [leadingBit] at *
      omega
    rw [hmod, hdiv]
    exact Nat.mul_lt_mul_of_pos_right (by omega) hpos

theorem unitsOf_strictMono : StrictMono unitsOf := strictMono_nat_of_lt_succ unitsOf_lt_succ

-- Magnitudes order like the numbers, also where one exponent ends and the next begins.
theorem absValue_strictMono : StrictMono absValue := by
  intro m n hmn
  have hunits : (unitsOf m : ℚ) < unitsOf n := Nat.cast_lt.mpr (unitsOf_strictMono hmn)
  have hone : (0 : ℚ) < unitsPerOne := Nat.cast_pos.mpr unitsPerOne_pos
  rw [absValue_eq, absValue_eq]
  exact div_lt_div_of_pos_right hunits hone

theorem absValue_zero : absValue 0 = 0 := by
  rw [absValue_eq]
  exact zero_div _

theorem absValue_nonneg (m : Nat) : 0 ≤ absValue m := by
  rw [← absValue_zero]
  exact absValue_strictMono.monotone (Nat.zero_le m)

theorem absValue_pos_iff : 0 < absValue m ↔ m ≠ 0 := by
  rw [← absValue_zero, absValue_strictMono.lt_iff_lt]
  exact Nat.pos_iff_ne_zero

end Magnitudes

variable {x y : Binary64}

theorem value_nonpos (h : x.isNegative) : x.value ≤ 0 := by
  rw [value, if_pos h]
  exact neg_nonpos.mpr (absValue_nonneg _)

theorem value_nonneg (h : ¬ x.isNegative) : 0 ≤ x.value := by
  rw [value, if_neg h]
  exact absValue_nonneg _

section Whole

theorem value_eq_zero_iff : x.value = 0 ↔ x.magnitude = 0 := by
  have habs : absValue x.magnitude = 0 ↔ x.magnitude = 0 := by
    rw [← absValue_zero]
    exact absValue_strictMono.injective.eq_iff
  unfold value
  split
  · rw [neg_eq_zero, habs]
  · exact habs

theorem absValue_eq_natCast {m n : Nat} : absValue m = n ↔ unitsOf m = n * unitsPerOne := by
  have hone : (unitsPerOne : ℚ) ≠ 0 := Nat.cast_ne_zero.mpr (Nat.ne_of_gt unitsPerOne_pos)
  rw [absValue_eq, div_eq_iff hone]
  norm_cast

theorem value_eq_intCast {i : Int} : x.value = i ↔ absValue x.magnitude = i.natAbs ∧
    if x.isNegative then i ≤ 0 else 0 ≤ i := by
  have habs := absValue_nonneg x.magnitude
  unfold value
  split
  · constructor
    · intro h
      have hi : (i : ℚ) ≤ 0 := by linarith
      have hle : i ≤ 0 := by exact_mod_cast hi
      refine ⟨?_, hle⟩
      rw [← Int.cast_natCast, Int.ofNat_natAbs_of_nonpos hle]
      push_cast
      linarith
    · rintro ⟨h, hle⟩
      rw [h, ← Int.cast_natCast, Int.ofNat_natAbs_of_nonpos hle]
      push_cast
      ring
  · constructor
    · intro h
      have hi : (0 : ℚ) ≤ i := by linarith
      have hle : 0 ≤ i := by exact_mod_cast hi
      refine ⟨?_, hle⟩
      rw [← Int.cast_natCast, Int.natAbs_of_nonneg hle]
      exact h
    · rintro ⟨h, hle⟩
      rw [h, ← Int.cast_natCast, Int.natAbs_of_nonneg hle]

-- The integer that is read off the units is the number itself.
theorem toInt?_eq_some_iff {i : Int} : x.toInt? = some i ↔ x.isFinite ∧ x.value = i := by
  rw [value_eq_intCast, absValue_eq_natCast]
  unfold toInt?
  by_cases hfinite : x.isFinite
  · by_cases hwhole : x.units % unitsPerOne = 0
    · obtain ⟨n, hn⟩ := Nat.dvd_of_mod_eq_zero hwhole
      have hunits : unitsOf x.magnitude = n * unitsPerOne := by rw [Nat.mul_comm, ← hn, units]
      rw [if_pos ⟨hfinite, hwhole⟩, hunits, Nat.mul_left_inj (Nat.ne_of_gt unitsPerOne_pos), hn,
        Nat.mul_div_cancel_left _ unitsPerOne_pos]
      simp only [Option.some.injEq, hfinite, true_and]
      split <;> omega
    · have hne : unitsOf x.magnitude ≠ i.natAbs * unitsPerOne := by
        intro h
        apply hwhole
        rw [units, h, Nat.mul_mod_left]
      simp [hwhole, hne]
  · simp [hfinite]

end Whole

theorem isFinite_iff : x.isFinite ↔ x.magnitude < infinity := decide_eq_true_iff

theorem isNaN_iff : x.isNaN ↔ infinity < x.magnitude := decide_eq_true_iff

theorem isNaN_of_isFinite (h : x.isFinite) : x.isNaN = false :=
  decide_eq_false (Nat.not_lt.mpr (Nat.le_of_lt (isFinite_iff.mp h)))

theorem eq_iff_sign_magnitude :
    x = y ↔ x.isNegative = y.isNegative ∧ x.magnitude = y.magnitude := by
  constructor
  · intro h
    exact ⟨congrArg isNegative h, congrArg magnitude h⟩
  · intro h
    apply rank_injective
    rw [rank, rank, h.1, h.2]

theorem eq_negativeInfinity_iff :
    x = negativeInfinity ↔ x.isNegative ∧ x.magnitude = infinity := by
  have hsign : negativeInfinity.isNegative = true := by decide
  have hmagnitude : negativeInfinity.magnitude = infinity := by decide
  rw [eq_iff_sign_magnitude, hsign, hmagnitude]

theorem eq_negativeZero_iff : x = negativeZero ↔ x.isNegative ∧ x.magnitude = 0 := by
  have hsign : negativeZero.isNegative = true := by decide
  have hmagnitude : negativeZero.magnitude = 0 := by decide
  rw [eq_iff_sign_magnitude, hsign, hmagnitude]

theorem eq_positiveZero_iff : x = ⟨0⟩ ↔ ¬ x.isNegative ∧ x.magnitude = 0 := by
  have hsign : isNegative ⟨0⟩ = false := by decide
  have hmagnitude : magnitude ⟨0⟩ = 0 := by decide
  rw [eq_iff_sign_magnitude, hsign, hmagnitude, Bool.not_eq_true]

theorem isBelowZero_iff : x.isBelowZero ↔ (x.isFinite ∧ x.value < 0) ∨ x = negativeInfinity := by
  have hpos : 0 < absValue x.magnitude ↔ x.magnitude ≠ 0 := absValue_pos_iff
  have hinfinity : infinity ≠ 0 := by decide
  have hsplit : ¬ infinity < x.magnitude ↔ x.magnitude < infinity ∨ x.magnitude = infinity := by
    omega
  rw [eq_negativeInfinity_iff, isFinite_iff]
  simp only [isBelowZero, Bool.and_eq_true, Bool.not_eq_true', ← Bool.not_eq_true, isNaN_iff,
    bne_iff_ne, hsplit]
  by_cases hsign : x.isNegative
  · have hbelow : x.value < 0 ↔ x.magnitude ≠ 0 := by
      rw [value, if_pos hsign, neg_lt_zero, hpos]
    rw [hbelow]
    simp only [hsign, true_and]
    constructor
    · rintro ⟨hlt | heq, hne⟩
      · exact .inl ⟨hlt, hne⟩
      · exact .inr heq
    · rintro (⟨hlt, hne⟩ | heq)
      · exact ⟨.inl hlt, hne⟩
      · exact ⟨.inr heq, heq ▸ hinfinity⟩
  · have hnot : ¬ x.value < 0 := not_lt.mpr (value_nonneg hsign)
    simp [hsign, hnot]

section Order

variable {v w : WithBot (WithTop ℚ)}

theorem abs_value (x : Binary64) : |x.value| = absValue x.magnitude := by
  unfold value
  split
  · rw [abs_neg, abs_of_nonneg (absValue_nonneg _)]
  · exact abs_of_nonneg (absValue_nonneg _)

-- The bits of an infinity, read as those of a number, stand for one beyond all that there are.
theorem eq_of_number? (h : x.number? = some v) :
    (v = ⊥ ∧ x.value = -absValue infinity) ∨
    (v = (x.value : WithTop ℚ) ∧ |x.value| < absValue infinity) ∨
    (v = ⊤ ∧ x.value = absValue infinity) := by
  unfold number? at h
  by_cases hnan : x.isNaN
  · rw [if_pos hnan] at h
    cases h
  by_cases hfinite : x.isFinite
  · rw [if_neg hnan, if_pos hfinite] at h
    rw [abs_value]
    exact .inr (.inl ⟨(Option.some.inj h).symm, absValue_strictMono (isFinite_iff.mp hfinite)⟩)
  · have hmagnitude : x.magnitude = infinity := by
      rw [isNaN_iff] at hnan
      rw [isFinite_iff] at hfinite
      omega
    rw [if_neg hnan, if_neg hfinite] at h
    by_cases hsign : x.isNegative
    · rw [if_pos hsign] at h
      rw [value, if_pos hsign, hmagnitude]
      exact .inl ⟨(Option.some.inj h).symm, rfl⟩
    · rw [if_neg hsign] at h
      rw [value, if_neg hsign, hmagnitude]
      exact .inr (.inr ⟨(Option.some.inj h).symm, rfl⟩)

theorem number?_lt_iff (hx : x.number? = some v) (hy : y.number? = some w) :
    v < w ↔ x.value < y.value := by
  have hpos : 0 < absValue infinity := absValue_pos_iff.mpr (by decide)
  obtain ⟨rfl, hv⟩ | ⟨rfl, hv⟩ | ⟨rfl, hv⟩ := eq_of_number? hx
  · obtain ⟨rfl, hw⟩ | ⟨rfl, hw⟩ | ⟨rfl, hw⟩ := eq_of_number? hy
    · simp [hv, hw]
    · have hlow := neg_lt_of_abs_lt hw
      simpa [hv] using hlow
    · have hends : -absValue infinity < absValue infinity := by linarith
      simpa [hv, hw] using hends
  · have hlow := neg_lt_of_abs_lt hv
    have hhigh := lt_of_abs_lt hv
    obtain ⟨rfl, hw⟩ | ⟨rfl, hw⟩ | ⟨rfl, hw⟩ := eq_of_number? hy
    · simpa [hw] using hlow.le
    · simp
    · have htop : ((x.value : WithTop ℚ) : WithBot (WithTop ℚ)) < ⊤ :=
        WithBot.coe_lt_coe.mpr (WithTop.coe_lt_top _)
      simpa [hw, htop] using hhigh
  · obtain ⟨rfl, hw⟩ | ⟨rfl, hw⟩ | ⟨rfl, hw⟩ := eq_of_number? hy
    · have hends : -absValue infinity ≤ absValue infinity := by linarith
      simpa [hv, hw] using hends
    · have hhigh := lt_of_abs_lt hw
      simpa [hv] using hhigh.le
    · simp [hv, hw]

theorem value_lt_iff_of_negative (hx : x.isNegative) (hy : y.isNegative) :
    x.value < y.value ↔ x.rank < y.rank := by
  rw [value, value, if_pos hx, if_pos hy, neg_lt_neg_iff, absValue_strictMono.lt_iff_lt, rank,
    rank, if_pos hx, if_pos hy]
  omega

theorem value_lt_iff_of_not_negative (hx : ¬ x.isNegative) (hy : ¬ y.isNegative) :
    x.value < y.value ↔ x.rank < y.rank := by
  rw [value, value, if_neg hx, if_neg hy, absValue_strictMono.lt_iff_lt, rank, rank,
    if_neg hx, if_neg hy]
  omega

theorem rank_lt_of_signs (hx : x.isNegative) (hy : ¬ y.isNegative) : x.rank < y.rank := by
  rw [rank, rank, if_pos hx, if_neg hy]
  omega

theorem value_le_of_signs (hx : x.isNegative) (hy : ¬ y.isNegative) :
    x.value ≤ y.value :=
  (value_nonpos hx).trans (value_nonneg hy)

theorem value_eq_iff_of_signs (hx : x.isNegative) (hy : ¬ y.isNegative) :
    x.value = y.value ↔ x.magnitude = 0 ∧ y.magnitude = 0 := by
  rw [← value_eq_zero_iff, ← value_eq_zero_iff]
  constructor
  · intro h
    have hzero := le_antisymm (value_nonpos hx) (h ▸ value_nonneg hy)
    exact ⟨hzero, h ▸ hzero⟩
  · intro h
    rw [h.1, h.2]

-- The bit patterns order like the numbers. Only the zeros are two patterns for one number.
theorem rank_lt_iff : x.rank < y.rank ↔ x.value < y.value ∨ x = negativeZero ∧ y = ⟨0⟩ := by
  rw [eq_negativeZero_iff, eq_positiveZero_iff]
  by_cases hx : x.isNegative
  · by_cases hy : y.isNegative
    · simp [value_lt_iff_of_negative hx hy, hy]
    · -- a negative pattern is below the others, and so is its number unless both are zero
      have hzeros := value_eq_iff_of_signs hx hy
      have hle := lt_or_eq_of_le (value_le_of_signs hx hy)
      rw [hzeros] at hle
      simpa [rank_lt_of_signs hx hy, hx, hy] using hle
  · by_cases hy : y.isNegative
    · have hrank := not_lt_of_gt (rank_lt_of_signs hy hx)
      have hvalue := not_lt.mpr (value_le_of_signs hy hx)
      simp [hrank, hvalue, hx]
    · simp [value_lt_iff_of_not_negative hx hy, hx]

end Order

end CallSuite.Binary64
