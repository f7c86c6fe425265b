import CallSuite.Binary64.Literal
import CallSuite.Proofs.Binary64.Number
import CallSuite.Proofs.Binary64.Rounded

namespace CallSuite.Binary64

-- With this the infinities stand at both ends, and the two zeros are one.
def signedMagnitude (x : Binary64) : Int := if x.isNegative then -x.magnitude else x.magnitude

-- A NaN is in no relation to any number, and in none to itself.
def less (x y : Binary64) : Bool :=
  !x.isNaN && !y.isNaN && x.signedMagnitude < y.signedMagnitude

def atMost (x y : Binary64) : Bool :=
  !x.isNaN && !y.isNaN && x.signedMagnitude ≤ y.signedMagnitude

def same (x y : Binary64) : Bool :=
  !x.isNaN && !y.isNaN && x.signedMagnitude = y.signedMagnitude

def signedUnits (x : Binary64) : Int := if x.isNegative then -x.units else x.units

-- Rounded towards zero. The sign stays, also that of a zero.
def trunc (x : Binary64) : Binary64 :=
  if x.isFinite then ofMagnitude x.isNegative (roundRatio (x.units / unitsPerOne) 1) else x

def nan : Binary64 := ofMagnitude false quietNaN

-- The exact difference is rounded once. That of equal numbers is the positive zero, unless the
-- positive zero is taken from the negative one.
def sub (x y : Binary64) : Binary64 :=
  if x.isNaN || y.isNaN then nan
  else if x.isFinite && y.isFinite then
    let units := x.signedUnits - y.signedUnits
    if units = 0 then ofMagnitude (x.isNegative && !y.isNegative) 0
    else ofMagnitude (units < 0) (roundUnits units.natAbs 1)
  else if x.isFinite then ofMagnitude (!y.isNegative) infinity
  else if y.isFinite || x.isNegative != y.isNegative then x
  else nan

def fract (x : Binary64) : Binary64 := x.sub x.trunc

-- Rounded towards zero, and what is outside the bounds to the nearer one. A NaN becomes zero.
def toBounded (lo hi : Int) (x : Binary64) : Int :=
  if x.isNaN then 0
  else if x.isFinite then
    let n : Int := x.units / unitsPerOne
    max lo (min hi (if x.isNegative then -n else n))
  else if x.isNegative then lo
  else hi

variable {x y : Binary64} {i j : Int}

section Compare

theorem value_lt_iff : x.value < y.value ↔ x.signedMagnitude < y.signedMagnitude := by
  have hzeros (hx : x.isNegative) (hy : ¬ y.isNegative) := value_eq_iff_of_signs hx hy
  by_cases hx : x.isNegative <;> by_cases hy : y.isNegative
  · rw [value_lt_iff_of_negative hx hy, rank, rank, signedMagnitude, signedMagnitude, if_pos hx,
      if_pos hy, if_pos hx, if_pos hy]
    omega
  · rw [lt_iff_le_and_ne, and_iff_right (value_le_of_signs hx hy), ne_eq,
      value_eq_iff_of_signs hx hy, signedMagnitude, signedMagnitude, if_pos hx, if_neg hy]
    omega
  · have hle := value_le_of_signs hy hx
    rw [signedMagnitude, signedMagnitude, if_neg hx, if_pos hy]
    refine iff_of_false (not_lt.mpr hle) (by omega)
  · rw [value_lt_iff_of_not_negative hx hy, rank, rank, signedMagnitude, signedMagnitude,
      if_neg hx, if_neg hy, if_neg hx, if_neg hy]

theorem less_iff : x.less y ↔ x.isNaN = false ∧ y.isNaN = false ∧ x.value < y.value := by
  simp [less, value_lt_iff, and_assoc]

theorem atMost_iff : x.atMost y ↔ x.isNaN = false ∧ y.isNaN = false ∧ x.value ≤ y.value := by
  rw [← not_lt, value_lt_iff]
  simp [atMost, and_assoc]

theorem same_iff : x.same y ↔ x.isNaN = false ∧ y.isNaN = false ∧ x.value = y.value := by
  have hvalue : x.value = y.value ↔ ¬ x.value < y.value ∧ ¬ y.value < x.value := by
    rw [not_lt, not_lt, and_comm]
    exact le_antisymm_iff
  have hmagnitude : x.signedMagnitude = y.signedMagnitude ↔
      ¬ x.signedMagnitude < y.signedMagnitude ∧ ¬ y.signedMagnitude < x.signedMagnitude := by
    omega
  rw [hvalue, value_lt_iff, value_lt_iff, ← hmagnitude]
  simp [same, and_assoc]

-- Numbers that denote integers are compared as these are.
theorem less_iff_lt (hx : x.toInt? = some i) (hy : y.toInt? = some j) : x.less y ↔ i < j := by
  obtain ⟨hx, hvalue⟩ := toInt?_eq_some_iff.mp hx
  obtain ⟨hy, hvalue'⟩ := toInt?_eq_some_iff.mp hy
  rw [less_iff, hvalue, hvalue', Int.cast_lt, and_iff_right (isNaN_of_isFinite hx),
    and_iff_right (isNaN_of_isFinite hy)]

theorem atMost_iff_le (hx : x.toInt? = some i) (hy : y.toInt? = some j) :
    x.atMost y ↔ i ≤ j := by
  obtain ⟨hx, hvalue⟩ := toInt?_eq_some_iff.mp hx
  obtain ⟨hy, hvalue'⟩ := toInt?_eq_some_iff.mp hy
  rw [atMost_iff, hvalue, hvalue', Int.cast_le, and_iff_right (isNaN_of_isFinite hx),
    and_iff_right (isNaN_of_isFinite hy)]

theorem isFinite_of_value_eq (hy : y.isFinite) (h : x.value = y.value) : x.isFinite := by
  have habs := congrArg abs h
  rw [abs_value, abs_value, absValue_strictMono.injective.eq_iff] at habs
  rwa [isFinite_iff, habs, ← isFinite_iff]

theorem same_iff_of_toInt? (hy : y.toInt? = some i) : x.same y ↔ x.toInt? = some i := by
  obtain ⟨hfinite, hvalue⟩ := toInt?_eq_some_iff.mp hy
  rw [same_iff, toInt?_eq_some_iff, ← hvalue, and_iff_right (isNaN_of_isFinite hfinite)]
  refine and_congr_left fun h => ?_
  have hx := isFinite_of_value_eq hfinite h
  exact iff_of_true (isNaN_of_isFinite hx) hx

theorem isNaN_zero : isNaN ⟨0⟩ = false := by decide

theorem signedMagnitude_zero : signedMagnitude ⟨0⟩ = 0 := by decide

theorem less_zero (x : Binary64) : x.less ⟨0⟩ = x.isBelowZero := by
  have hbelow : x.signedMagnitude < 0 ↔ x.isNegative ∧ x.magnitude ≠ 0 := by
    unfold signedMagnitude
    split <;> simp_all
    omega
  rw [Bool.eq_iff_iff]
  simp only [less, isBelowZero, isNaN_zero, signedMagnitude_zero, Bool.and_eq_true,
    decide_eq_true_eq, hbelow, bne_iff_ne, Bool.not_false, and_true]
  tauto

theorem same_zero_iff : x.same ⟨0⟩ ↔ x.magnitude = 0 := by
  have hmagnitude : x.signedMagnitude = 0 ↔ x.magnitude = 0 := by
    unfold signedMagnitude
    split <;> omega
  have hnot (h : x.magnitude = 0) : x.isNaN = false := by
    rw [isNaN, h]
    decide
  simpa [same, isNaN_zero, signedMagnitude_zero, hmagnitude] using hnot

end Compare

section Fract

variable {m : Nat}

-- The whole part of a finite number has a significand as well.
theorem exists_scaled_whole (hm : m < infinity) :
    ∃ q d, Scaled q d ∧ unitsOf m / unitsPerOne * unitsPerOne = q * 2 ^ d := by
  obtain ⟨q, d, hscaled, rfl⟩ := exists_scaled_of_lt_infinity hm
  -- a power that large is not to be computed
  obtain ⟨e, he⟩ : ∃ e, e = 1074 := ⟨1074, rfl⟩
  rw [hscaled.unitsOf_eq, unitsPerOne_eq, ← he]
  rcases Nat.lt_or_ge d e with hd | hd
  · have hunits : q * 2 ^ d ≤ 2 ^ e * 2 ^ 53 := by
      rw [Nat.mul_comm]
      exact Nat.mul_le_mul (Nat.pow_le_pow_right (by decide) hd.le) hscaled.lt.le
    have hwhole := Nat.div_le_of_le_mul hunits
    exact exists_scaled hwhole (by omega) (by omega)
  · exact ⟨q, d, hscaled, Nat.div_mul_cancel (Dvd.dvd.mul_left (pow_dvd_pow 2 hd) q)⟩

theorem lt_signBit_of_le_infinity (hm : m ≤ infinity) : m < signBit := by
  simp only [infinity, signBit] at *
  omega

theorem roundUnits_le_infinity (num den : Nat) : roundUnits num den ≤ infinity :=
  Nat.min_le_right _ _

-- Less than half of the least number is rounded to zero, and that is less than one unit.
theorem roundUnits_ne_zero {n : Nat} (hn : n ≠ 0) : roundUnits n 1 ≠ 0 := by
  unfold roundUnits
  dsimp only
  rw [Nat.div_one, Nat.one_shiftLeft]
  rcases Nat.eq_zero_or_pos (n.log2 - 52) with hzero | hpos
  · rw [hzero, Nat.pow_zero, nearest_one]
    simp only [infinity]
    omega
  · simp only [leadingBit, infinity]
    omega

theorem signedUnits_sub_trunc (hx : x.isFinite) : x.trunc.isFinite ∧
    x.trunc.isNegative = x.isNegative ∧
    (x.signedUnits - x.trunc.signedUnits).natAbs = x.units % unitsPerOne := by
  have hm := isFinite_iff.mp hx
  obtain ⟨q, d, hscaled, hwhole⟩ := exists_scaled_whole hm
  have hround : roundRatio (x.units / unitsPerOne) 1 = d * leadingBit + q := by
    rw [roundRatio, units, hwhole, hscaled.roundUnits_eq]
  have htrunc : x.trunc = ofMagnitude x.isNegative (d * leadingBit + q) := by
    rw [trunc, if_pos hx, hround]
  have hsign := lt_signBit_of_le_infinity hscaled.lt_infinity.le
  have hunits : x.trunc.units = x.units / unitsPerOne * unitsPerOne := by
    rw [units, htrunc, magnitude_ofMagnitude hsign, hscaled.unitsOf_eq, ← hwhole, units]
  have hnegative : x.trunc.isNegative = x.isNegative := by
    rw [htrunc, isNegative_ofMagnitude hsign]
  refine ⟨?_, hnegative, ?_⟩
  · rw [isFinite_iff, htrunc, magnitude_ofMagnitude hsign]
    exact hscaled.lt_infinity
  · have hparts := Nat.div_add_mod' x.units unitsPerOne
    rw [signedUnits, signedUnits, hnegative, hunits]
    generalize x.units / unitsPerOne * unitsPerOne = whole at hparts
    split <;> omega

theorem magnitude_nan_ne_zero : nan.magnitude ≠ 0 := by decide

theorem magnitude_fract_eq_zero_iff :
    x.fract.magnitude = 0 ↔ x.isFinite ∧ x.units % unitsPerOne = 0 := by
  by_cases hfinite : x.isFinite
  · obtain ⟨htrunc, _, hunits⟩ := signedUnits_sub_trunc hfinite
    have hsub : x.fract = if x.signedUnits - x.trunc.signedUnits = 0 then
          ofMagnitude (x.isNegative && !x.trunc.isNegative) 0
        else ofMagnitude (x.signedUnits - x.trunc.signedUnits < 0)
          (roundUnits (x.signedUnits - x.trunc.signedUnits).natAbs 1) := by
      simp [fract, sub, hfinite, htrunc, isNaN_of_isFinite]
    rw [hsub, and_iff_right hfinite, ← hunits]
    split
    next hzero => simp [hzero, magnitude_ofMagnitude (show 0 < signBit by decide)]
    next hne =>
      have hround := roundUnits_ne_zero (Int.natAbs_ne_zero.mpr hne)
      have hsign := lt_signBit_of_le_infinity
        (roundUnits_le_infinity (x.signedUnits - x.trunc.signedUnits).natAbs 1)
      rw [magnitude_ofMagnitude hsign]
      exact iff_of_false hround (Int.natAbs_ne_zero.mpr hne)
  · have hnan : x.fract = nan := by
      simp [fract, sub, trunc, hfinite]
    rw [hnan]
    simp [hfinite, magnitude_nan_ne_zero]

theorem same_fract_zero (x : Binary64) : x.fract.same ⟨0⟩ = x.toInt?.isSome := by
  rw [Bool.eq_iff_iff, same_zero_iff, magnitude_fract_eq_zero_iff]
  unfold toInt?
  split <;> simp_all

end Fract

-- A whole number between the bounds is what it is converted to.
theorem toBounded_of_toInt? {lo hi : Int} (h : x.toInt? = some i) (hlo : lo ≤ i) (hhi : i ≤ hi) :
    x.toBounded lo hi = i := by
  have hfinite := (toInt?_eq_some_iff.mp h).1
  unfold toInt? at h
  split at h <;> cases h
  rw [toBounded, isNaN_of_isFinite hfinite, if_neg (by decide), if_pos hfinite]
  exact (congrArg (max lo) (min_eq_right hhi)).trans (max_eq_right hlo)

end CallSuite.Binary64
