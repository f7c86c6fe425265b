import CallSuite.Proofs.Binary64.Exact
import CallSuite.Text.Basic
import Mathlib.Algebra.Ring.Int.Defs

namespace CallSuite.Binary64

open CallSuite.Text

theorem div_le_nearest (num den : Nat) : num / den ≤ nearest num den := by
  unfold nearest
  dsimp only
  split <;> omega

theorem nearest_le (num den : Nat) : nearest num den ≤ num / den + 1 := by
  unfold nearest
  dsimp only
  split <;> omega

theorem nearest_one (num : Nat) : nearest num 1 = num := by
  rw [nearest, Nat.div_one, Nat.mod_one]
  rfl

-- The whole number nearest to `n` among those of 53 significant bits.
def significant (n : Nat) : Nat := nearest n (2 ^ (n.log2 - 52)) * 2 ^ (n.log2 - 52)

-- The integer that `i` becomes as a double-precision number.
def rounded (i : Int) : Int := if i < 0 then -(significant i.natAbs : Int) else significant i.natAbs

section Significand

variable {n e : Nat}

-- Beyond 53 bits the leading ones make up the significand.
theorem significand_bounds (hn : 2 ^ 53 ≤ n) :
    2 ^ 52 ≤ n / 2 ^ (n.log2 - 52) ∧ n / 2 ^ (n.log2 - 52) < 2 ^ 53 := by
  have hpos : n ≠ 0 := by omega
  have hlog : 53 ≤ n.log2 := (Nat.le_log2 hpos).mpr hn
  have hlow : 2 ^ (52 + (n.log2 - 52)) ≤ n := by
    rw [show 52 + (n.log2 - 52) = n.log2 by omega]
    exact Nat.log2_self_le hpos
  have hhigh : n < 2 ^ (53 + (n.log2 - 52)) := by
    rw [show 53 + (n.log2 - 52) = n.log2 + 1 by omega]
    exact Nat.lt_log2_self
  rw [Nat.pow_add] at hlow hhigh
  exact ⟨(Nat.le_div_iff_mul_le (Nat.two_pow_pos _)).mpr hlow,
    (Nat.div_lt_iff_lt_mul (Nat.two_pow_pos _)).mpr hhigh⟩

theorem log2_mul_two_pow (hn : n ≠ 0) (e : Nat) : (n * 2 ^ e).log2 = n.log2 + e := by
  have hpos := Nat.two_pow_pos e
  rw [Nat.log2_eq_iff (Nat.mul_ne_zero hn (Nat.ne_of_gt hpos)), Nat.pow_add,
    Nat.add_right_comm, Nat.pow_add]
  exact ⟨Nat.mul_le_mul_right _ (Nat.log2_self_le hn),
    Nat.mul_lt_mul_of_pos_right Nat.lt_log2_self hpos⟩

theorem roundUnits_mul_two_pow (hn : 2 ^ 53 ≤ n) (e : Nat) : roundUnits (n * 2 ^ e) 1 =
    min ((n.log2 - 52 + e) * leadingBit + nearest n (2 ^ (n.log2 - 52))) infinity := by
  have hpos : n ≠ 0 := by omega
  have hlog : 53 ≤ n.log2 := (Nat.le_log2 hpos).mpr hn
  have hdropped : (n * 2 ^ e).log2 - 52 = n.log2 - 52 + e := by
    rw [log2_mul_two_pow hpos]
    omega
  unfold roundUnits
  dsimp only
  rw [Nat.div_one, hdropped, Nat.one_shiftLeft, Nat.pow_add,
    nearest_mul_right _ _ (Nat.two_pow_pos e)]

-- A significand that is rounded up to 2 ^ 53 carries into the power.
theorem exists_scaled_significant (hn : 2 ^ 53 ≤ n) (hhigh : n.log2 + e ≤ 2096) :
    ∃ q d, Scaled q d ∧ roundUnits (n * 2 ^ e) 1 = d * leadingBit + q ∧
      significant n * 2 ^ e = q * 2 ^ d := by
  have hlog : 53 ≤ n.log2 := (Nat.le_log2 (by omega)).mpr hn
  obtain ⟨hlow, hquot⟩ := significand_bounds hn
  have hle := div_le_nearest n (2 ^ (n.log2 - 52))
  have hnearest := nearest_le n (2 ^ (n.log2 - 52))
  have hround := roundUnits_mul_two_pow hn e
  unfold significant
  generalize nearest n (2 ^ (n.log2 - 52)) = q at *
  generalize hd : n.log2 - 52 = d at *
  have hunits : q * 2 ^ d * 2 ^ e = q * 2 ^ (d + e) := by rw [Nat.mul_assoc, Nat.pow_add]
  by_cases hcarry : q < 2 ^ 53
  · have hscaled : Scaled q (d + e) := ⟨hcarry, .inl (by rw [leadingBit]; omega), by omega⟩
    refine ⟨q, d + e, hscaled, ?_, hunits⟩
    rw [hround, Nat.min_eq_left (Nat.le_of_lt hscaled.lt_infinity)]
  · obtain rfl : q = 2 ^ 53 := by omega
    have hscaled : Scaled (2 ^ 52) (d + e + 1) := ⟨by decide, .inl (by decide), by omega⟩
    have hlt := hscaled.lt_infinity
    have hnext : (d + e) * leadingBit + 2 ^ 53 = (d + e + 1) * leadingBit + 2 ^ 52 := by
      rw [leadingBit]
      omega
    refine ⟨2 ^ 52, d + e + 1, hscaled, ?_, ?_⟩
    · rw [hround, hnext, Nat.min_eq_left (Nat.le_of_lt hlt)]
    · rw [hunits, ← Nat.pow_add, ← Nat.pow_add]
      congr 1
      omega

end Significand

section Rounded

variable {i : Int} {n : Nat}

theorem significant_of_lt (hn : n < 2 ^ 53) : significant n = n := by
  have hlog : n.log2 - 52 = 0 := by
    by_cases hzero : n = 0
    · rw [hzero]
      rfl
    · have := (Nat.log2_lt hzero).mpr hn
      omega
  rw [significant, hlog, Nat.pow_zero, nearest_one, Nat.mul_one]

theorem significant_le (hn : 2 ^ 53 ≤ n) : significant n ≤ 2 ^ (n.log2 + 1) := by
  have hlog : 53 ≤ n.log2 := (Nat.le_log2 (by omega)).mpr hn
  have hquot := (significand_bounds hn).2
  have hnearest := nearest_le n (2 ^ (n.log2 - 52))
  calc significant n ≤ 2 ^ 53 * 2 ^ (n.log2 - 52) := Nat.mul_le_mul_right _ (by omega)
    _ = 2 ^ (n.log2 + 1) := by
        rw [← Nat.pow_add]
        congr 1
        omega

-- From half a step below 2 ^ 63 on everything is rounded up to it.
theorem significant_lt_iff (hn : n < 2 ^ 63) : significant n < 2 ^ 63 ↔ n < 2 ^ 63 - 512 := by
  rcases Nat.lt_or_ge n (2 ^ 53) with hsmall | hlarge
  · rw [significant_of_lt hsmall]
    omega
  by_cases htop : n < 2 ^ 62
  · have hlog : n.log2 < 62 := (Nat.log2_lt (by omega)).mpr htop
    have hle : 2 ^ (n.log2 + 1) ≤ 2 ^ 62 := Nat.pow_le_pow_right (by decide) hlog
    have hsignificant := significant_le hlarge
    omega
  · have hlog : n.log2 = 62 := (Nat.log2_eq_iff (by omega)).mpr ⟨by omega, hn⟩
    rw [significant, hlog, nearest]
    split <;> omega

theorem significant_le_two_pow (hn : n ≤ 2 ^ 63) : significant n ≤ 2 ^ 63 := by
  rcases Nat.lt_or_eq_of_le hn with hlt | rfl
  · rcases Nat.lt_or_ge n (2 ^ 53) with hsmall | hlarge
    · rw [significant_of_lt hsmall]
      exact hn
    · have hlog : n.log2 < 63 := (Nat.log2_lt (by omega)).mpr hlt
      exact Nat.le_trans (significant_le hlarge) (Nat.pow_le_pow_right (by decide) hlog)
  · decide

theorem toInt?_ofInt_rounded (hi : i.natAbs ≤ 2 ^ 63) : (ofInt i).toInt? = some (rounded i) := by
  rcases Nat.lt_or_ge i.natAbs (2 ^ 53) with hsmall | hlarge
  · rw [toInt?_ofInt (Nat.le_of_lt hsmall), rounded, significant_of_lt hsmall, Option.some.injEq]
    split <;> omega
  · have hlog : i.natAbs.log2 < 64 := (Nat.log2_lt (by omega)).mpr (by omega)
    obtain ⟨q, d, hscaled, hround, hunits⟩ :=
      exists_scaled_significant (e := 1074) hlarge (by omega)
    rw [← unitsPerOne_eq] at hround hunits
    exact toInt?_ofInt_of_scaled hscaled hround hunits

theorem rounded_eq_self (hi : i.natAbs ≤ 2 ^ 53) : rounded i = i := by
  have hrounded := toInt?_ofInt_rounded (i := i) (by omega)
  rw [toInt?_ofInt hi] at hrounded
  exact (Option.some.inj hrounded).symm

theorem isInt64_rounded (hi : IsInt64 i) (htop : i < 2 ^ 63 - 512) : IsInt64 (rounded i) := by
  obtain ⟨hlow, hhigh⟩ := hi
  unfold rounded
  by_cases hneg : i < 0
  · have hle := significant_le_two_pow (n := i.natAbs) (by omega)
    rw [if_pos hneg, IsInt64]
    omega
  · have hlt := significant_lt_iff (n := i.natAbs) (by omega)
    rw [if_neg hneg, IsInt64]
    omega

theorem rounded_eq_two_pow (hi : IsInt64 i) (htop : 2 ^ 63 - 512 ≤ i) : rounded i = 2 ^ 63 := by
  obtain ⟨_, hhigh⟩ := hi
  have hlt := significant_lt_iff (n := i.natAbs) (by omega)
  have hle := significant_le_two_pow (n := i.natAbs) (by omega)
  rw [rounded, if_neg (by omega)]
  omega

end Rounded

end CallSuite.Binary64
