import CallSuite.Proofs.Binary64.Arithmetic
import CallSuite.Proofs.Binary64.Nearest
import CallSuite.Proofs.Binary64.ReadBack

namespace CallSuite.Binary64

open CallSuite.Text

section Recut

-- What stands in front of the first `c`, and what follows it.
def splitOnce? (c : Char) (cs : List Char) : Option (List Char × List Char) :=
  match cs.dropWhile (· ≠ c) with
  | [] => none
  | _ :: rest => some (cs.takeWhile (· ≠ c), rest)

def readInt32? (cs : List Char) : Option Int := do
  let i ← readInt? cs
  if -2 ^ 31 ≤ i ∧ i < 2 ^ 31 then some i else none

def padded (width n : Nat) : List Char :=
  let ds := Nat.toDigits 10 n
  List.replicate (width - ds.length) '0' ++ ds

-- One digit in front of the point, and the exponent with a sign only where it is negative.
def exponential (x : Binary64) : String :=
  let d := shortest .up x.magnitude
  x.signed (d.mantissa ++ 'e' :: (toString d.place).toList)

-- The same text with the exponent written anew.
def recut (text : String) : String :=
  let (mantissa, exponent) := (splitOnce? 'e' text.toList).getD (text.toList, ['0'])
  let e := (readInt32? exponent).getD 0
  String.ofList (mantissa ++ 'e' :: (if e < 0 then '-' else '+') :: padded 2 e.natAbs)

theorem splitOnce?_append {c : Char} {cs : List Char} (h : c ∉ cs) (rest : List Char) :
    splitOnce? c (cs ++ c :: rest) = some (cs, rest) := by
  have hother : ∀ c' ∈ cs, decide (c' ≠ c) = true := by
    intro c' hc'
    exact decide_eq_true fun heq => h (heq ▸ hc')
  rw [splitOnce?, List.dropWhile_append_of_pos hother, List.takeWhile_append_of_pos hother]
  simp

theorem not_mem_mantissa (d : Decimal) : 'e' ∉ d.mantissa := by
  have hchars : 'e' ∉ d.digitChars := fun h => by cases isDigit_digitChars d 'e' h
  unfold Decimal.mantissa
  split
  next hdigits => simpa [hdigits] using hchars
  next => exact hchars

section Place

variable {d : Decimal} {m : Nat}

theorem ten_pow_le_digits (hd : d.digits ≠ 0) : 10 ^ (d.digitChars.length - 1) ≤ d.digits := by
  by_contra hlt
  rcases Nat.eq_zero_or_pos (d.digitChars.length - 1) with hzero | hpos
  · rw [hzero, Nat.pow_zero] at hlt
    omega
  · have hlength := (Nat.length_toDigits_le_iff (by decide) hpos).mpr (Nat.not_le.mp hlt)
    have : d.digitChars.length ≤ d.digitChars.length - 1 := hlength
    omega

theorem digits_lt_ten_pow (d : Decimal) : d.digits < 10 ^ d.digitChars.length :=
  (Nat.length_toDigits_le_iff (by decide) Nat.length_toDigits_pos).mp (Nat.le_refl _)

theorem ten_zpow_place_le (hd : d.digits ≠ 0) :
    (10 : ℚ) ^ d.place ≤ d.digits * 10 ^ d.exponent := by
  rw [Decimal.place, zpow_add₀ (by norm_num), zpow_natCast, mul_comm]
  refine mul_le_mul_of_nonneg_right ?_ (by positivity)
  exact_mod_cast ten_pow_le_digits hd

theorem lt_ten_zpow_place (d : Decimal) :
    (d.digits : ℚ) * 10 ^ d.exponent < 10 ^ (d.place + 1) := by
  have hlength : 0 < d.digitChars.length := Nat.length_toDigits_pos
  have hplace : d.place + 1 = d.exponent + (d.digitChars.length : Nat) := by
    rw [Decimal.place]
    omega
  rw [hplace, zpow_add₀ (by norm_num), zpow_natCast, mul_comm]
  refine mul_lt_mul_of_pos_left ?_ (by positivity)
  exact_mod_cast digits_lt_ten_pow d

-- A decimal that is read as a magnitude between zero and the infinity is between the numbers that
-- are rounded to them.
theorem bounds_of_reads (hm : m < infinity) (hzero : m ≠ 0) (h : reads d m) :
    absValue 1 / 2 ≤ d.digits * 10 ^ d.exponent ∧
      (d.digits : ℚ) * 10 ^ d.exponent < absValue infinity := by
  have hround : RoundsTo ((d.digits : ℚ) * 10 ^ d.exponent) m :=
    of_decide_eq_true h ▸ roundsTo_roundDecimal d.digits d.exponent
  have hnonneg : (0 : ℚ) ≤ d.digits * 10 ^ d.exponent := by positivity
  constructor
  · by_contra hless
    exact hzero (hround.unique (roundsTo_zero hnonneg (not_le.mp hless)))
  · by_contra hmore
    exact hm.ne (hround.unique (roundsTo_infinity (not_lt.mp hmore)))

theorem place_bounds (hm : m < infinity) (hzero : m ≠ 0) (h : reads d m) :
    -1076 < d.place ∧ d.place < 1024 := by
  obtain ⟨hlow, hhigh⟩ := bounds_of_reads hm hzero h
  have hten : (1 : ℚ) < 10 := by norm_num
  have hpow (n : Nat) : (2 : ℚ) ^ n ≤ 10 ^ n := pow_le_pow_left₀ (by norm_num) (by norm_num) n
  constructor
  · have hleast : (10 : ℚ) ^ (-(1074 + 1 : Nat) : ℤ) ≤ absValue 1 / 2 := by
      rw [absValue_one, div_div, ← pow_succ, zpow_neg, zpow_natCast, one_div]
      exact inv_anti₀ (by positivity) (hpow _)
    have hlt := (hleast.trans hlow).trans_lt (lt_ten_zpow_place d)
    have := (zpow_lt_zpow_iff_right₀ hten).mp hlt
    omega
  · have hdigits : d.digits ≠ 0 := by
      intro hnone
      have hpos : 0 < absValue 1 := absValue_pos_iff.mpr (by decide)
      rw [hnone, Nat.cast_zero, zero_mul] at hlow
      linarith
    have hgreatest : absValue infinity ≤ (10 : ℚ) ^ ((1024 : Nat) : ℤ) := by
      rw [absValue_infinity, zpow_natCast]
      exact hpow 1024
    have hlt := ((ten_zpow_place_le hdigits).trans_lt hhigh).trans_le hgreatest
    exact_mod_cast (zpow_lt_zpow_iff_right₀ hten).mp hlt

end Place

theorem recut_signed (x : Binary64) (d : Decimal) (hlow : -2 ^ 31 ≤ d.place)
    (hhigh : d.place < 2 ^ 31) :
    recut (x.signed (d.mantissa ++ 'e' :: (toString d.place).toList)) =
      x.signed (d.scientific 2) := by
  have hread : readInt32? (toString d.place).toList = some d.place := by
    rw [readInt32?, readInt?_toString]
    exact if_pos ⟨hlow, hhigh⟩
  have hletter : 'e' ∉ (if x.isNegative then '-' :: d.mantissa else d.mantissa) := by
    have hmantissa := not_mem_mantissa d
    split <;> simpa using hmantissa
  have hsigned (cs : List Char) : (if x.isNegative then '-' :: (d.mantissa ++ cs)
      else d.mantissa ++ cs) = (if x.isNegative then '-' :: d.mantissa else d.mantissa) ++ cs := by
    split <;> rfl
  rw [recut, signed, String.toList_ofList, hsigned, splitOnce?_append hletter]
  simp only [Option.getD_some, hread, signed, Decimal.scientific, hsigned]
  rfl

-- Cut at its exponent and put together again, the text has the same digits and the exponent with
-- its sign and at least two digits.
theorem recut_exponential {x : Binary64} (hfinite : x.isFinite) (hzero : x.magnitude ≠ 0) :
    recut x.exponential = x.signed ((shortest .up x.magnitude).scientific 2) := by
  have hm := isFinite_iff.mp hfinite
  obtain ⟨hlow, hhigh⟩ := place_bounds hm hzero (shortest_reads .up hm)
  exact recut_signed x _ (by omega) (by omega)

end Recut

section Formatted

def abs (x : Binary64) : Binary64 := ofMagnitude false x.magnitude

-- All digits in front of the point, and behind it one that is rounded.
def oneDecimal (x : Binary64) : String :=
  let tenths := nearest (x.units * 10) unitsPerOne
  x.signed (Nat.toDigits 10 (tenths / 10) ++ '.' :: Nat.toDigits 10 (tenths % 10))

-- The literal as it is put together from the other texts of a number.
def formatted (x : Binary64) : String :=
  let least := ofMagnitude false (roundDecimal 1 (-4))
  let limit := ofMagnitude false (roundDecimal 1 16)
  if x.isNaN then "nan"
  else if !x.isFinite then
    if (⟨0⟩ : Binary64).less x then "inf" else "-inf"
  else if ¬ x.abs.same ⟨0⟩ ∧ ¬ (least.atMost x.abs ∧ x.abs.less limit) then recut x.exponential
  else if x.fract.same ⟨0⟩ then x.oneDecimal
  else x.plain

variable {x : Binary64} {m n : Nat}

theorem signedMagnitude_ofMagnitude (hm : m ≤ infinity) :
    (ofMagnitude false m).isNaN = false ∧ (ofMagnitude false m).signedMagnitude = m := by
  have hsign := lt_signBit_of_le_infinity hm
  rw [isNaN, signedMagnitude, isNegative_ofMagnitude hsign, magnitude_ofMagnitude hsign]
  exact ⟨decide_eq_false (Nat.not_lt.mpr hm), rfl⟩

theorem far_iff (hfinite : x.isFinite) :
    (¬ x.abs.same ⟨0⟩ ∧ ¬ ((ofMagnitude false (roundDecimal 1 (-4))).atMost x.abs ∧
      x.abs.less (ofMagnitude false (roundDecimal 1 16)))) ↔
    x.magnitude ≠ 0 ∧ (x.magnitude < roundDecimal 1 (-4) ∨ roundDecimal 1 16 ≤ x.magnitude) := by
  have hm := (isFinite_iff.mp hfinite).le
  have hzero : x.abs.same ⟨0⟩ ↔ x.magnitude = 0 := by
    rw [same_zero_iff, abs, magnitude_ofMagnitude (lt_signBit_of_le_infinity hm)]
  obtain ⟨hnan, habs⟩ := signedMagnitude_ofMagnitude hm
  obtain ⟨hleast, hleast'⟩ :=
    signedMagnitude_ofMagnitude (roundsTo_roundDecimal 1 (-4)).le_infinity
  obtain ⟨hlimit, hlimit'⟩ := signedMagnitude_ofMagnitude (roundsTo_roundDecimal 1 16).le_infinity
  rw [hzero]
  simp only [atMost, less, abs, hnan, habs, hleast, hleast', hlimit, hlimit', Bool.not_false,
    Bool.true_and, decide_eq_true_eq, Int.ofNat_le, Int.ofNat_lt]
  omega

-- A whole number is rounded to a whole number.
theorem whole_roundRatio (hm : roundRatio n 1 < infinity) :
    unitsOf (roundRatio n 1) % unitsPerOne = 0 := by
  -- a power that large is not to be computed
  obtain ⟨e, he⟩ : ∃ e, e = 1074 := ⟨1074, rfl⟩
  unfold roundRatio at hm ⊢
  rw [unitsPerOne_eq, ← he] at hm ⊢
  rcases Nat.lt_or_ge n (2 ^ 53) with hsmall | hlarge
  · obtain ⟨q, d, hscaled, hunits⟩ := exists_scaled hsmall.le (show 52 ≤ e by omega) (by omega)
    rw [hunits, hscaled.roundUnits_eq, hscaled.unitsOf_eq, ← hunits, Nat.mul_mod_left]
  · obtain ⟨hlow, hhigh⟩ := significand_bounds hlarge
    have hle := div_le_nearest n (2 ^ (n.log2 - 52))
    have hge := nearest_le n (2 ^ (n.log2 - 52))
    rw [roundUnits_mul_two_pow hlarge] at hm ⊢
    generalize nearest n (2 ^ (n.log2 - 52)) = q at *
    rw [Nat.min_eq_left (by omega), unitsOf_significand_le (by rw [leadingBit]; omega)
      (.inl (by rw [leadingBit]; omega)), Nat.pow_add, ← Nat.mul_assoc, Nat.mul_mod_left]

theorem exponent_neg_of_reads {d : Decimal} (hm : m < infinity) (h : reads d m)
    (hwhole : unitsOf m % unitsPerOne ≠ 0) : d.exponent < 0 := by
  have hround : roundDecimal d.digits d.exponent = m := of_decide_eq_true h
  cases hexponent : d.exponent with
  | negSucc e => exact Int.negSucc_lt_zero e
  | ofNat e =>
      rw [hexponent] at hround
      have hratio : roundRatio (d.digits * 10 ^ e) 1 = m := by
        rw [roundRatio_of_roundDecimal (hround ▸ hm), hround]
      rw [← hratio] at hm hwhole
      exact absurd (whole_roundRatio hm) hwhole

theorem oneDecimal_of_toInt? {i : Int} (h : x.toInt? = some i) :
    x.oneDecimal = x.signed (Nat.toDigits 10 i.natAbs ++ ['.', '0']) := by
  have hvalue := (toInt?_eq_some_iff.mp h).2
  have hunits : x.units = i.natAbs * unitsPerOne :=
    absValue_eq_natCast.mp (value_eq_intCast.mp hvalue).1
  have htenths : nearest (x.units * 10) unitsPerOne = i.natAbs * 10 := by
    have hscale := nearest_mul_right (i.natAbs * 10) 1 unitsPerOne_pos
    rwa [Nat.one_mul, nearest_one, Nat.mul_right_comm, ← hunits] at hscale
  rw [oneDecimal, htenths, Nat.mul_div_cancel _ (by decide), Nat.mul_mod_left, Nat.toDigits_zero]

theorem formatted_eq_literal (x : Binary64) : x.formatted = x.literal := by
  unfold formatted literal
  dsimp only
  by_cases hnan : x.isNaN
  · rw [if_pos hnan, if_pos hnan]
  rw [if_neg hnan, if_neg hnan]
  by_cases hfinite : x.isFinite
  · have hm := isFinite_iff.mp hfinite
    have hnot : ¬ (!x.isFinite) = true := by simp [hfinite]
    rw [if_neg hnot, if_neg hnot]
    by_cases hfar : x.magnitude ≠ 0 ∧
        (x.magnitude < roundDecimal 1 (-4) ∨ roundDecimal 1 16 ≤ x.magnitude)
    · rw [if_pos ((far_iff hfinite).mpr hfar), if_pos hfar, recut_exponential hfinite hfar.1]
    · rw [if_neg (mt (far_iff hfinite).mp hfar), if_neg hfar, same_fract_zero]
      cases hwhole : x.toInt? with
      | some i => exact oneDecimal_of_toInt? hwhole
      | none =>
          have hunits : x.units % unitsPerOne ≠ 0 := by
            intro hzero
            rw [toInt?, if_pos ⟨hfinite, hzero⟩] at hwhole
            cases hwhole
          have hexponent := exponent_neg_of_reads hm (shortest_reads .up hm) hunits
          simp [plain, hnan, hfinite, Decimal.pointed, hexponent]
  · have hmagnitude : x.magnitude = infinity := by
      rw [isNaN_iff] at hnan
      rw [isFinite_iff] at hfinite
      omega
    have hnot : (!x.isFinite) = true := by simp [hfinite]
    have hless : (⟨0⟩ : Binary64).less x ↔ ¬ x.isNegative := by
      simp only [less, isNaN_zero, hnan, signedMagnitude, hmagnitude]
      cases x.isNegative <;> decide
    rw [if_pos hnot, if_pos hnot, signed]
    cases hsign : x.isNegative <;> simp [hless, hsign]

end Formatted

end CallSuite.Binary64
