import CallSuite.Proofs.Binary64.Nearest
import CallSuite.Proofs.Binary64.ReadBack

namespace CallSuite.Binary64

open CallSuite.Text

inductive Style where
  | positional
  | scientific

-- Zero is written out, and so is what has its digits near the point.
def Style.of (v : ℚ) : Style :=
  if v = 0 ∨ 1 / 10 ^ 4 ≤ |v| ∧ |v| < 10 ^ 16 then .positional else .scientific

def IsDigits (cs : List Char) : Prop := cs ≠ [] ∧ ∀ c ∈ cs, c.isDigit

def afterPoint (fraction : List Char) : List Char := if fraction = [] then [] else '.' :: fraction

-- The numerals of a number that is not below zero. A positional one has digits on both sides of
-- the point. A scientific one has one digit in front of a point, which is there only with digits
-- behind it, and then the sign of the exponent and at least two digits.
inductive Numeral : Style → List Char → ℚ → Prop where
  | positional {whole fraction : List Char} (hwhole : IsDigits whole)
      (hfraction : IsDigits fraction) :
      Numeral .positional (whole ++ '.' :: fraction)
        (natOfDigits (whole ++ fraction) / 10 ^ fraction.length)
  | scientific {c : Char} {fraction exponent : List Char} (negative : Bool) (hc : c.isDigit)
      (hfraction : ∀ c' ∈ fraction, c'.isDigit) (hexponent : ∀ c' ∈ exponent, c'.isDigit)
      (htwo : 2 ≤ exponent.length) :
      Numeral .scientific
        (c :: (afterPoint fraction ++ 'e' :: (if negative then '-' else '+') :: exponent))
        (natOfDigits (c :: fraction) / 10 ^ fraction.length *
          10 ^ applySign negative (natOfDigits exponent))

-- The text has the sign of `x`, and without the sign it is the numeral of a number to which no
-- magnitude is nearer than that of `x`.
def Spells (style : Style) (text : List Char) (x : Binary64) : Prop :=
  ∃ cs q, text = (if x.isNegative then '-' :: cs else cs) ∧ Numeral style cs q ∧
    RoundsTo q x.magnitude

variable {style : Style} {cs text : List Char} {q : ℚ} {x y : Binary64}

section Reading

theorem Numeral.exists_readDecimal? (h : Numeral style cs q) :
    ∃ digits exponent, readDecimal? cs = some (digits, exponent) ∧
      q = (digits : ℚ) * 10 ^ exponent := by
  cases h with
  | positional hwhole hfraction =>
      refine ⟨_, _, readDecimal?_point hwhole.2 hwhole.1 hfraction.2, ?_⟩
      rw [zpow_neg, zpow_natCast, div_eq_mul_inv]
  | @scientific c fraction exponent negative hc hfraction hexponent htwo =>
      have hne : exponent ≠ [] := List.ne_nil_of_length_pos (by omega)
      have hread := readInt?_signed negative hne hexponent
      have hwhole : ∀ c' ∈ [c], c'.isDigit := by simpa using hc
      unfold afterPoint
      -- with no digits behind the point there is none to read
      split
      next hempty =>
        subst hempty
        refine ⟨_, _, readDecimal?_whole hwhole (List.cons_ne_nil _ _) hread, ?_⟩
        rw [List.length_nil, pow_zero, div_one]
      next =>
        have hletter : ∀ c' ∈ ('e' :: (if negative then '-' else '+') :: exponent).head?,
            c'.isDigit = false := by
          simp only [List.head?_cons, Option.mem_some_iff]
          rintro c' rfl
          rfl
        refine ⟨_, _, readDecimal?_pointed hwhole (List.cons_ne_nil _ _) hfraction hletter
          (readExponent?_cons hread), ?_⟩
        rw [zpow_sub₀ (by norm_num), zpow_natCast, List.singleton_append]
        ring

-- What is read is the number that is spelled, rounded once.
theorem read?_of_spells (h : Spells style text x) : read? text = some x := by
  obtain ⟨cs, q, rfl, hnumeral, hrounds⟩ := h
  obtain ⟨digits, exponent, hread, rfl⟩ := hnumeral.exists_readDecimal?
  have hround := (roundsTo_roundDecimal digits exponent).unique hrounds
  have hsigned := read?_signed_of_readDecimal? hread hround
  rwa [signed, String.toList_ofList] at hsigned

theorem exists_spells (h : Numeral style cs q) (negative : Bool) :
    ∃ y, Spells style (if negative then '-' :: cs else cs) y := by
  obtain ⟨digits, exponent, _, rfl⟩ := h.exists_readDecimal?
  have hrounds := roundsTo_roundDecimal digits exponent
  have hsign : roundDecimal digits exponent < signBit :=
    Nat.lt_of_le_of_lt hrounds.le_infinity (by decide)
  refine ⟨ofMagnitude negative (roundDecimal digits exponent), cs, _, ?_, h, ?_⟩
  · rw [isNegative_ofMagnitude hsign]
  · rw [magnitude_ofMagnitude hsign]
    exact hrounds

theorem spells_iff_read? (h : Numeral style cs q) (negative : Bool) :
    Spells style (if negative then '-' :: cs else cs) y ↔
      read? (if negative then '-' :: cs else cs) = some y := by
  refine ⟨read?_of_spells, fun hread => ?_⟩
  -- something is spelled, and that is what was read
  obtain ⟨z, hz⟩ := exists_spells h negative
  obtain rfl : z = y := Option.some.inj ((read?_of_spells hz).symm.trans hread)
  exact hz

end Reading

section Bounds

variable {m n : Nat}

-- Between two neighbouring magnitudes there is no other.
theorem absValue_lt_iff (hlow : absValue n < q) (hhigh : q ≤ absValue (n + 1)) :
    absValue m < q ↔ m < n + 1 := by
  constructor
  · intro h
    exact absValue_strictMono.lt_iff_lt.mp (h.trans_le hhigh)
  · intro h
    exact (absValue_strictMono.monotone (Nat.le_of_lt_succ h)).trans_lt hlow

theorem absValue_lt_tenThousandth : absValue m < 1 / 10 ^ 4 ↔ m < roundDecimal 1 (-4) := by
  have hround : roundDecimal 1 (-4) = 0x3f1a36e2eb1c432c + 1 := by decide +kernel
  have hlow : unitsOf 0x3f1a36e2eb1c432c * 10 ^ 4 < unitsPerOne := by decide +kernel
  have hhigh : unitsPerOne ≤ unitsOf (0x3f1a36e2eb1c432c + 1) * 10 ^ 4 := by decide +kernel
  have hone : (0 : ℚ) < unitsPerOne := Nat.cast_pos.mpr unitsPerOne_pos
  rw [hround]
  refine absValue_lt_iff ?_ ?_
  · rw [absValue_eq, div_lt_div_iff₀ hone (by norm_num), one_mul]
    exact_mod_cast hlow
  · rw [absValue_eq, div_le_div_iff₀ (by norm_num) hone, one_mul]
    exact_mod_cast hhigh

theorem absValue_lt_tenPowSixteen : absValue m < 10 ^ 16 ↔ m < roundDecimal 1 16 := by
  have hunits : unitsOf (roundDecimal 1 16) = 10 ^ 16 * unitsPerOne := by decide +kernel
  have hvalue : absValue (roundDecimal 1 16) = 10 ^ 16 := by
    rw [absValue_eq_natCast.mpr hunits, Nat.cast_pow, Nat.cast_ofNat]
  rw [← hvalue]
  exact absValue_strictMono.lt_iff_lt

theorem positional_iff (x : Binary64) :
    (x.value = 0 ∨ 1 / 10 ^ 4 ≤ |x.value| ∧ |x.value| < 10 ^ 16) ↔
      ¬ (x.magnitude ≠ 0 ∧
        (x.magnitude < roundDecimal 1 (-4) ∨ roundDecimal 1 16 ≤ x.magnitude)) := by
  rw [value_eq_zero_iff, abs_value, absValue_lt_tenPowSixteen, ← not_lt, absValue_lt_tenThousandth]
  omega

end Bounds

section Writing

variable {d : Decimal}

theorem numeral_of_positional {e : Nat} (h : d.exponent = .negSucc e) :
    ∃ q, Numeral .positional d.positional q := by
  obtain ⟨whole, fraction, hpositional, hdigits, _, hne, hlength⟩ := exists_positional h
  obtain ⟨hwhole, hfraction⟩ := List.forall_mem_append.mp hdigits
  rw [hpositional]
  exact ⟨_, .positional ⟨hne, hwhole⟩ ⟨List.ne_nil_of_length_pos (by omega), hfraction⟩⟩

theorem numeral_point_zero (h : IsDigits cs) : ∃ q, Numeral .positional (cs ++ ['.', '0']) q :=
  ⟨_, .positional h ⟨List.cons_ne_nil _ _, isDigit_zeros 1⟩⟩

theorem exists_numeral_pointed (d : Decimal) : ∃ q, Numeral .positional d.pointed q := by
  unfold Decimal.pointed
  cases hexponent : d.exponent with
  | ofNat e =>
      have hnonneg : ¬Int.ofNat e < 0 := Int.not_lt.mpr (Int.natCast_nonneg e)
      rw [if_neg hnonneg]
      exact numeral_point_zero (positional_eq hexponent).2
  | negSucc e =>
      rw [if_pos (Int.negSucc_lt_zero e)]
      exact numeral_of_positional hexponent

theorem exists_numeral_scientific (d : Decimal) : ∃ q, Numeral .scientific (d.scientific 2) q := by
  obtain ⟨c, fraction, hchars⟩ := List.exists_cons_of_ne_nil (digitChars_ne_nil d)
  have hdigits := isDigit_digitChars d
  rw [hchars] at hdigits
  obtain ⟨hc, hfraction⟩ := List.forall_mem_cons.mp hdigits
  have hmantissa : d.mantissa = c :: afterPoint fraction := by
    cases fraction <;> simp [Decimal.mantissa, hchars, afterPoint]
  obtain ⟨ds, htext, hexponent, _, htwo, _⟩ := exponentText_eq 2 d.place
  have hnumeral := Numeral.scientific (decide (d.place < 0)) hc hfraction hexponent htwo
  simp only [decide_eq_true_eq] at hnumeral
  rw [Decimal.scientific, hmantissa, htext]
  exact ⟨_, hnumeral⟩

theorem exists_numeral_literal (h : x.isFinite) :
    ∃ cs q, x.literal = x.signed cs ∧ Numeral (.of x.value) cs q := by
  have hnan : ¬ x.isNaN := Bool.not_eq_true _ ▸ isNaN_of_isFinite h
  unfold literal Style.of
  rw [if_neg hnan, if_neg (by simp [h])]
  split
  next hfar =>
    rw [if_neg fun hnear => (positional_iff x).mp hnear hfar]
    exact ⟨_, (exists_numeral_scientific _).imp fun q hq => ⟨rfl, hq⟩⟩
  next hnear =>
    rw [if_pos ((positional_iff x).mpr hnear)]
    split
    next i _ =>
      exact ⟨_, (numeral_point_zero ⟨Nat.toDigits_ne_nil, isDigit_toDigits _⟩).imp
        fun q hq => ⟨rfl, hq⟩⟩
    next => exact ⟨_, (exists_numeral_pointed _).imp fun q hq => ⟨rfl, hq⟩⟩

end Writing

-- Correctly rounded, the text of a finite number gives its bits back and no other ones.
theorem spells_literal_iff (h : x.isFinite) :
    Spells (.of x.value) x.literal.toList y ↔ y = x := by
  obtain ⟨cs, q, hliteral, hnumeral⟩ := exists_numeral_literal h
  have hread := read?_literal (isNaN_of_isFinite h)
  rw [hliteral, signed, String.toList_ofList] at hread ⊢
  rw [spells_iff_read? hnumeral, hread, Option.some.injEq, eq_comm]

-- The sign of a zero is kept.
theorem spells_literal_negativeZero : negativeZero.literal = "-0.0" ∧
    Spells .positional "-0.0".toList negativeZero ∧ ¬ Spells .positional "-0.0".toList ⟨0⟩ := by
  have hfinite : negativeZero.isFinite := by decide
  have hzero : negativeZero.value = 0 := value_eq_zero_iff.mpr (by decide)
  have hliteral : negativeZero.literal = "-0.0" := by decide +kernel
  have hspells {y : Binary64} : Spells .positional "-0.0".toList y ↔ y = negativeZero := by
    have h := spells_literal_iff (y := y) hfinite
    rwa [hliteral, Style.of, if_pos (.inl hzero)] at h
  refine ⟨hliteral, hspells.mpr rfl, fun h => ?_⟩
  exact absurd (hspells.mp h) (by decide)

end CallSuite.Binary64
