import CallSuite.Proofs.Binary64.Number
import CallSuite.Proofs.Binary64.Rounded

namespace CallSuite.Binary64

-- No magnitude is nearer to `q`, and where another one is as near this one is even. The infinity
-- counts as `2 ^ 1024`, the number that would follow the greatest one.
structure RoundsTo (q : ℚ) (m : Nat) : Prop where
  le_infinity : m ≤ infinity
  closest : ∀ n ≤ infinity, |absValue m - q| ≤ |absValue n - q|
  even : ∀ n ≤ infinity, n ≠ m → |absValue n - q| = |absValue m - q| → m % 2 = 0

section Between

variable {q : ℚ} {m n i : Nat}

theorem abs_sub_of_le (h : absValue m ≤ q) : |absValue m - q| = q - absValue m := by
  rw [abs_sub_comm, abs_of_nonneg (by linarith)]

theorem abs_sub_of_ge (h : q ≤ absValue m) : |absValue m - q| = absValue m - q :=
  abs_of_nonneg (by linarith)

theorem abs_sub_lt_of_lt_of_le (h : n < m) (hq : absValue m ≤ q) :
    |absValue m - q| < |absValue n - q| := by
  have hlt := absValue_strictMono h
  rw [abs_sub_of_le hq, abs_sub_of_le (by linarith)]
  linarith

theorem abs_sub_lt_of_gt_of_ge (h : m < n) (hq : q ≤ absValue m) :
    |absValue m - q| < |absValue n - q| := by
  have hlt := absValue_strictMono h
  rw [abs_sub_of_ge hq, abs_sub_of_ge (by linarith)]
  linarith

theorem roundsTo_infinity (h : absValue infinity ≤ q) : RoundsTo q infinity where
  le_infinity := Nat.le_refl _
  closest := by
    intro n hn
    rcases Nat.lt_or_eq_of_le hn with hlt | rfl
    · exact (abs_sub_lt_of_lt_of_le hlt h).le
    · exact le_refl _
  even := by
    intro n hn hne heq
    exact absurd heq (abs_sub_lt_of_lt_of_le (Nat.lt_of_le_of_ne hn hne) h).ne'

-- Between two magnitudes the lower one is the answer where it is nearer.
theorem roundsTo_lower (hi : i ≤ infinity) (hlow : absValue i ≤ q)
    (hless : q - absValue i ≤ absValue (i + 1) - q)
    (heven : q - absValue i = absValue (i + 1) - q → i % 2 = 0) : RoundsTo q i := by
  have hhigh : q ≤ absValue (i + 1) := by linarith
  have habove {n : Nat} (hn : i < n) : absValue (i + 1) - q ≤ |absValue n - q| := by
    rw [← abs_sub_of_ge hhigh]
    rcases Nat.lt_or_eq_of_le (Nat.succ_le_of_lt hn) with hlt | heq
    · exact (abs_sub_lt_of_gt_of_ge hlt hhigh).le
    · rw [← heq]
  refine ⟨hi, fun n _ => ?_, fun n _ hne heq => ?_⟩
  · rcases Nat.lt_trichotomy n i with hlt | rfl | hgt
    · exact (abs_sub_lt_of_lt_of_le hlt hlow).le
    · exact le_refl _
    · have := habove hgt
      rw [abs_sub_of_le hlow]
      linarith
  · rcases Nat.lt_or_gt_of_ne hne with hlt | hgt
    · exact absurd heq (abs_sub_lt_of_lt_of_le hlt hlow).ne'
    · have := habove hgt
      rw [heq, abs_sub_of_le hlow] at this
      exact heven (le_antisymm hless this)

theorem roundsTo_upper (hi : i + 1 ≤ infinity) (hhigh : q ≤ absValue (i + 1))
    (hless : absValue (i + 1) - q ≤ q - absValue i)
    (heven : q - absValue i = absValue (i + 1) - q → (i + 1) % 2 = 0) : RoundsTo q (i + 1) := by
  have hlow : absValue i ≤ q := by linarith
  have hbelow {n : Nat} (hn : n < i + 1) : q - absValue i ≤ |absValue n - q| := by
    rw [← abs_sub_of_le hlow]
    rcases Nat.lt_or_eq_of_le (Nat.le_of_lt_succ hn) with hlt | rfl
    · exact (abs_sub_lt_of_lt_of_le hlt hlow).le
    · exact le_refl _
  refine ⟨hi, fun n _ => ?_, fun n _ hne heq => ?_⟩
  · rcases Nat.lt_trichotomy n (i + 1) with hlt | rfl | hgt
    · have := hbelow hlt
      rw [abs_sub_of_ge hhigh]
      linarith
    · exact le_refl _
    · exact (abs_sub_lt_of_gt_of_ge hgt hhigh).le
  · rcases Nat.lt_or_gt_of_ne hne with hlt | hgt
    · have := hbelow hlt
      rw [heq, abs_sub_of_ge hhigh] at this
      exact heven (le_antisymm this hless)
    · exact absurd heq (abs_sub_lt_of_gt_of_ge hgt hhigh).ne'

-- Two even magnitudes that are equally near have an odd one between them, which is nearer.
theorem RoundsTo.not_lt (h : RoundsTo q m) (h' : RoundsTo q n) : ¬ m < n := by
  intro hlt
  have hdist : |absValue n - q| = |absValue m - q| :=
    le_antisymm (h'.closest m h.le_infinity) (h.closest n h'.le_infinity)
  have hm := h.even n h'.le_infinity hlt.ne' hdist
  have hn := h'.even m h.le_infinity hlt.ne hdist.symm
  have hle := h'.le_infinity
  have hcloser := h.closest (m + 1) (by omega)
  have hleft : absValue m < absValue (m + 1) := absValue_strictMono (Nat.lt_succ_self m)
  have hright : absValue (m + 1) < absValue n := absValue_strictMono (by omega)
  rcases abs_cases (absValue m - q) with ⟨hdm, _⟩ | ⟨hdm, _⟩ <;>
    rcases abs_cases (absValue n - q) with ⟨hdn, _⟩ | ⟨hdn, _⟩ <;>
    rcases abs_cases (absValue (m + 1) - q) with ⟨hd, _⟩ | ⟨hd, _⟩ <;>
    linarith

theorem RoundsTo.unique (h : RoundsTo q m) (h' : RoundsTo q n) : m = n :=
  Nat.le_antisymm (Nat.not_lt.mp (h'.not_lt h)) (Nat.not_lt.mp (h.not_lt h'))

theorem roundsTo_absValue (hm : m ≤ infinity) : RoundsTo (absValue m) m where
  le_infinity := hm
  closest := by
    intro n _
    rw [sub_self, abs_zero]
    exact abs_nonneg _
  even := by
    intro n _ hne heq
    rw [sub_self, abs_zero, abs_eq_zero, sub_eq_zero] at heq
    exact absurd (absValue_strictMono.injective heq) hne

end Between

section Rounding

variable {num den d : Nat}

-- The lower neighbour is taken up to halfway, and there only if it is even.
theorem nearest_outcome (num den : Nat) :
    (nearest num den = num / den ∧ 2 * (num % den) ≤ den ∧
      (2 * (num % den) = den → num / den % 2 = 0)) ∨
    (nearest num den = num / den + 1 ∧ den ≤ 2 * (num % den) ∧
      (2 * (num % den) = den → (num / den + 1) % 2 = 0)) := by
  unfold nearest
  dsimp only
  split <;> omega

-- With a full significand the next power of two begins.
theorem unitsOf_significand_le {q : Nat} (hq : q ≤ 2 * leadingBit)
    (hleading : leadingBit ≤ q ∨ d = 0) :
    unitsOf (d * leadingBit + q) = q * 2 ^ d := by
  rcases Nat.lt_or_eq_of_le hq with hlt | rfl
  · exact unitsOf_significand hlt hleading
  · have hnext : d * leadingBit + 2 * leadingBit = (d + 1) * leadingBit + leadingBit := by
      simp only [leadingBit]
      omega
    rw [hnext, unitsOf_significand (by decide) (.inl (Nat.le_refl _)), Nat.pow_succ]
    ring

-- The quotient with its last bits taken away is a significand.
theorem significand_of_dropped (hd : d = (num / den).log2 - 52) :
    num / (den * 2 ^ d) < 2 * leadingBit ∧ (leadingBit ≤ num / (den * 2 ^ d) ∨ d = 0) := by
  rw [← Nat.div_div_eq_div_mul, hd]
  rcases Nat.lt_or_ge (num / den) (2 ^ 53) with hsmall | hlarge
  · have hlog : (num / den).log2 - 52 = 0 := by
      by_cases hzero : num / den = 0
      · rw [hzero]
        rfl
      · have := (Nat.log2_lt hzero).mpr hsmall
        omega
    rw [hlog, Nat.pow_zero, Nat.div_one]
    exact ⟨hsmall, .inr rfl⟩
  · obtain ⟨hlow, hhigh⟩ := significand_bounds hlarge
    exact ⟨hhigh, .inl hlow⟩

-- The quotient stands between its significand and the next one. How far it is from them is what the
-- division leaves.
theorem gaps_of_dropped (hden : 0 < den) (hd : d = (num / den).log2 - 52) :
    (num : ℚ) / den / unitsPerOne - absValue (d * leadingBit + num / (den * 2 ^ d)) =
        (num % (den * 2 ^ d) : Nat) / (den * unitsPerOne) ∧
      absValue (d * leadingBit + num / (den * 2 ^ d) + 1) - (num : ℚ) / den / unitsPerOne =
        ((den * 2 ^ d : Nat) - (num % (den * 2 ^ d) : Nat)) / (den * unitsPerOne) := by
  obtain ⟨hlt, hleading⟩ := significand_of_dropped hd
  have hden' : (den : ℚ) ≠ 0 := Nat.cast_ne_zero.mpr (Nat.ne_of_gt hden)
  have hone : (unitsPerOne : ℚ) ≠ 0 := Nat.cast_ne_zero.mpr (Nat.ne_of_gt unitsPerOne_pos)
  have hsplit : ((den * 2 ^ d * (num / (den * 2 ^ d)) + num % (den * 2 ^ d) : Nat) : ℚ) = num :=
    congrArg Nat.cast (Nat.div_add_mod num (den * 2 ^ d))
  have hbelow := unitsOf_significand hlt hleading
  have habove := unitsOf_significand_le (Nat.succ_le_of_lt hlt) (hleading.imp_left (by omega))
  generalize num / (den * 2 ^ d) = q at *
  generalize num % (den * 2 ^ d) = r at *
  rw [Nat.add_assoc, absValue_eq, absValue_eq, hbelow, habove, ← hsplit]
  push_cast
  constructor <;>
    (field_simp
     ring)

theorem div_le_rest_div_iff {r t : Nat} {s : ℚ} (hs : 0 < s) :
    (r : ℚ) / s ≤ ((t : ℚ) - r) / s ↔ 2 * r ≤ t := by
  rw [div_le_div_iff_of_pos_right hs, le_sub_iff_add_le, ← two_mul]
  norm_cast

theorem rest_div_le_div_iff {r t : Nat} {s : ℚ} (hs : 0 < s) :
    ((t : ℚ) - r) / s ≤ (r : ℚ) / s ↔ t ≤ 2 * r := by
  rw [div_le_div_iff_of_pos_right hs, sub_le_iff_le_add, ← two_mul]
  norm_cast

-- The answer is one of the two neighbours, or the infinity where that stands below it.
theorem exists_neighbours {q : ℚ} (num : Nat) (hden : 0 < den)
    (hq : q = (num : ℚ) / den / unitsPerOne) :
    ∃ i, absValue i ≤ q ∧ q ≤ absValue (i + 1) ∧
      ((roundUnits num den = min i infinity ∧ q - absValue i ≤ absValue (i + 1) - q ∧
          (q - absValue i = absValue (i + 1) - q → i % 2 = 0)) ∨
        (roundUnits num den = min (i + 1) infinity ∧ absValue (i + 1) - q ≤ q - absValue i ∧
          (q - absValue i = absValue (i + 1) - q → (i + 1) % 2 = 0))) := by
  obtain ⟨d, hd⟩ : ∃ d, d = (num / den).log2 - 52 := ⟨_, rfl⟩
  obtain ⟨hbelow, habove⟩ := gaps_of_dropped hden hd
  have hround : roundUnits num den =
      min (d * leadingBit + nearest num (den * 2 ^ d)) infinity := by
    rw [roundUnits, ← hd, Nat.shiftLeft_eq]
  have hs : (0 : ℚ) < den * unitsPerOne :=
    mul_pos (Nat.cast_pos.mpr hden) (Nat.cast_pos.mpr unitsPerOne_pos)
  have hrem : num % (den * 2 ^ d) ≤ den * 2 ^ d :=
    (Nat.mod_lt _ (Nat.mul_pos hden (Nat.two_pow_pos d))).le
  have hless := div_le_rest_div_iff (r := num % (den * 2 ^ d)) (t := den * 2 ^ d) hs
  have hmore := rest_div_le_div_iff (r := num % (den * 2 ^ d)) (t := den * 2 ^ d) hs
  have hlow : 0 ≤ q - absValue (d * leadingBit + num / (den * 2 ^ d)) := by
    rw [hq, hbelow]
    exact div_nonneg (Nat.cast_nonneg _) hs.le
  have hhigh : 0 ≤ absValue (d * leadingBit + num / (den * 2 ^ d) + 1) - q := by
    rw [hq, habove]
    exact div_nonneg (sub_nonneg.mpr (Nat.cast_le.mpr hrem)) hs.le
  rw [← hbelow, ← habove, ← hq] at hless hmore
  -- a magnitude is as even as its significand, for the leading bit counts an even number
  have hhalf {i n : Nat} (hi : i = d * leadingBit + n)
      (heven : 2 * (num % (den * 2 ^ d)) = den * 2 ^ d → n % 2 = 0)
      (heq : q - absValue (d * leadingBit + num / (den * 2 ^ d)) =
        absValue (d * leadingBit + num / (den * 2 ^ d) + 1) - q) :
      i % 2 = 0 := by
    have hn := heven (Nat.le_antisymm (hless.mp heq.le) (hmore.mp heq.ge))
    simp only [leadingBit] at hi
    omega
  refine ⟨_, sub_nonneg.mp hlow, sub_nonneg.mp hhigh, ?_⟩
  rcases nearest_outcome num (den * 2 ^ d) with ⟨hnearest, hle, heven⟩ | ⟨hnearest, hle, heven⟩
  · exact .inl ⟨by rw [hround, hnearest], hless.mpr hle, hhalf rfl heven⟩
  · exact .inr ⟨by rw [hround, hnearest, Nat.add_assoc], hmore.mpr hle,
      hhalf (Nat.add_assoc _ _ _) heven⟩

theorem roundsTo_roundUnits (num : Nat) (hden : 0 < den) :
    RoundsTo ((num : ℚ) / den / unitsPerOne) (roundUnits num den) := by
  obtain ⟨i, hlow, hhigh, ⟨hround, hle, heven⟩ | ⟨hround, hle, heven⟩⟩ :=
    exists_neighbours num hden rfl
  · rw [hround]
    rcases Nat.le_total i infinity with hi | hi
    · rw [Nat.min_eq_left hi]
      exact roundsTo_lower hi hlow hle heven
    · rw [Nat.min_eq_right hi]
      exact roundsTo_infinity ((absValue_strictMono.monotone hi).trans hlow)
  · rw [hround]
    rcases Nat.lt_or_ge i infinity with hi | hi
    · rw [Nat.min_eq_left hi]
      exact roundsTo_upper hi hhigh hle heven
    · rw [Nat.min_eq_right (Nat.le_succ_of_le hi)]
      exact roundsTo_infinity ((absValue_strictMono.monotone hi).trans hlow)

theorem roundsTo_roundRatio (num : Nat) (hden : 0 < den) :
    RoundsTo ((num : ℚ) / den) (roundRatio num den) := by
  have hone : (unitsPerOne : ℚ) ≠ 0 := Nat.cast_ne_zero.mpr (Nat.ne_of_gt unitsPerOne_pos)
  have hround := roundsTo_roundUnits (num * unitsPerOne) hden
  have hcancel : ((num * unitsPerOne : Nat) : ℚ) / den / unitsPerOne = num / den := by
    rw [Nat.cast_mul, div_div, mul_div_mul_right _ _ hone]
  rwa [hcancel] at hround

end Rounding

section Decimals

variable {digits e : Nat}

theorem absValue_infinity : absValue infinity = 2 ^ 1024 := by
  have hunits : unitsOf infinity = 2 ^ 1024 * unitsPerOne := by decide +kernel
  rw [absValue_eq_natCast.mpr hunits, Nat.cast_pow, Nat.cast_ofNat]

theorem absValue_one : absValue 1 = 1 / 2 ^ 1074 := by
  have hunits : unitsOf 1 = 1 := by decide
  rw [absValue_eq, hunits, unitsPerOne_eq, Nat.cast_one, Nat.cast_pow, Nat.cast_ofNat]

theorem infinity_le_of_exponent (hdigits : digits ≠ 0) (he : 310 < e) :
    absValue infinity ≤ (digits : ℚ) * 10 ^ (e : ℤ) := by
  have hpow : 2 ^ 1024 ≤ digits * 10 ^ e :=
    calc 2 ^ 1024 ≤ 10 ^ 311 := by decide +kernel
      _ ≤ 10 ^ e := Nat.pow_le_pow_right (by decide) he
      _ ≤ digits * 10 ^ e := Nat.le_mul_of_pos_left _ (Nat.pos_of_ne_zero hdigits)
  rw [absValue_infinity, zpow_natCast]
  exact_mod_cast hpow

theorem mul_two_pow_lt_ten_pow {k : Nat} (h : digits.log2 + 1 + k ≤ 3 * e) :
    digits * 2 ^ k < 10 ^ e :=
  calc digits * 2 ^ k < 2 ^ (digits.log2 + 1) * 2 ^ k :=
        Nat.mul_lt_mul_of_pos_right Nat.lt_log2_self (Nat.two_pow_pos k)
    _ = 2 ^ (digits.log2 + 1 + k) := (Nat.pow_add ..).symm
    _ ≤ 2 ^ (3 * e) := Nat.pow_le_pow_right (by decide) h
    _ = 8 ^ e := Nat.pow_mul 2 3 e
    _ ≤ 10 ^ e := Nat.pow_le_pow_left (by decide) e

theorem roundsTo_zero {q : ℚ} (hq : 0 ≤ q) (h : q < absValue 1 / 2) : RoundsTo q 0 := by
  refine roundsTo_lower (Nat.zero_le _) (by rwa [absValue_zero]) ?_ fun _ => rfl
  rw [absValue_zero]
  linarith

-- Less than half of the least magnitude.
theorem lt_half_of_exponent (he : digits.log2 + 1076 < 3 * (e + 1)) :
    (digits : ℚ) / 10 ^ (e + 1) < absValue 1 / 2 := by
  have hpow : digits * 2 ^ (1074 + 1) < 10 ^ (e + 1) := mul_two_pow_lt_ten_pow (by omega)
  have hten : (0 : ℚ) < 10 ^ (e + 1) := by positivity
  rw [absValue_one, div_div, ← pow_succ, div_lt_div_iff₀ hten (by positivity), one_mul]
  exact_mod_cast hpow

-- What is read off a literal is the magnitude nearest to the number it denotes.
theorem roundsTo_roundDecimal (digits : Nat) (exponent : Int) :
    RoundsTo ((digits : ℚ) * 10 ^ exponent) (roundDecimal digits exponent) := by
  unfold roundDecimal
  split
  next e =>
    rw [Int.ofNat_eq_natCast]
    split
    next hzero =>
      rw [hzero, Nat.cast_zero, zero_mul, ← absValue_zero]
      exact roundsTo_absValue (Nat.zero_le _)
    next hdigits =>
      split
      next he => exact roundsTo_infinity (infinity_le_of_exponent hdigits he)
      next =>
        have hround := roundsTo_roundRatio (digits * Nat.pow 10 e) Nat.one_pos
        rwa [Nat.cast_one, div_one, Nat.cast_mul, Nat.pow_eq, Nat.cast_pow, Nat.cast_ofNat,
          ← zpow_natCast] at hround
  next e =>
    rw [zpow_negSucc, ← div_eq_mul_inv]
    split
    next he =>
      have hpos : (0 : ℚ) ≤ digits / 10 ^ (e + 1) := div_nonneg (Nat.cast_nonneg _) (by positivity)
      exact roundsTo_zero hpos (lt_half_of_exponent he)
    next =>
      have hden : 0 < Nat.pow 10 (e + 1) := Nat.pow_pos (by decide)
      have hround := roundsTo_roundRatio digits hden
      rwa [Nat.pow_eq, Nat.cast_pow, Nat.cast_ofNat] at hround

end Decimals

end CallSuite.Binary64
