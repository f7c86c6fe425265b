import CallSuite.Proofs.Binary64.Arithmetic
import CallSuite.Proofs.Clause.Entry

namespace CallSuite.Clause

open CallSuite.Binary64 CallSuite.Text

-- The entries as the checks of the number itself give them: comparisons, the part behind the point,
-- and a conversion that rounds nothing once they have passed.
def checkedBool (x : Binary64) : Except DomainFault Bool :=
  if x.same ⟨0⟩ then .ok false
  else if x.same (ofInt 1) then .ok true
  else .error (.invalidBool x)

-- The greatest of the integers is rounded up, so the upper bound is left out.
def checkedInt (x : Binary64) : Except DomainFault Int :=
  if x.fract.same ⟨0⟩ ∧ (ofInt (-2 ^ 63)).atMost x ∧ x.less (ofInt (2 ^ 63 - 1)) then
    .ok (x.toBounded (-2 ^ 63) (2 ^ 63 - 1))
  else .error (.notIntegral .int x)

def checkedSize (kind : Kind) (x : Binary64) : Except DomainFault Nat :=
  if x.less ⟨0⟩ then .error (.negativeSize kind x)
  else if ¬ x.fract.same ⟨0⟩ then .error (.notIntegral kind x)
  else if (ofInt maxRangeLength).less x then .error (.sizeTooLarge kind x)
  else .ok (x.toBounded 0 (2 ^ 64 - 1)).toNat

theorem toInt?_zero : (⟨0⟩ : Binary64).toInt? = some 0 := by decide

theorem toInt?_one : (ofInt 1).toInt? = some 1 := toInt?_ofInt (by decide)

theorem checkedBool_eq_boolEntry : checkedBool = boolEntry := by
  funext x
  rw [checkedBool, boolEntry]
  simp only [same_iff_of_toInt? toInt?_zero, same_iff_of_toInt? toInt?_one]
  cases x.toInt? with
  | none => rfl
  | some i =>
      by_cases hzero : i = 0
      · subst hzero
        rfl
      · by_cases hone : i = 1
        · subst hone
          rfl
        · simp [hzero, hone]

theorem checkedInt_eq_intEntry : checkedInt = intEntry := by
  funext x
  have hlow : (ofInt (-2 ^ 63)).toInt? = some (-2 ^ 63) := by
    rw [toInt?_ofInt_rounded (by decide)]
    decide
  have hhigh : (ofInt (2 ^ 63 - 1)).toInt? = some (2 ^ 63) := by
    rw [toInt?_ofInt_rounded (by decide), rounded_eq_two_pow (by decide) (by decide)]
  rw [checkedInt, intEntry, same_fract_zero]
  cases hx : x.toInt? with
  | none => rfl
  | some i =>
      have hatMost : (ofInt (-2 ^ 63)).atMost x ↔ -2 ^ 63 ≤ i := atMost_iff_le hlow hx
      have hless : x.less (ofInt (2 ^ 63 - 1)) ↔ i < 2 ^ 63 := less_iff_lt hx hhigh
      by_cases hi : IsInt64 i
      · have hbounded : x.toBounded (-2 ^ 63) (2 ^ 63 - 1) = i :=
          toBounded_of_toInt? hx hi.1 (Int.le_sub_one_of_lt hi.2)
        rw [if_pos ⟨rfl, hatMost.mpr hi.1, hless.mpr hi.2⟩, hbounded]
        exact (if_pos hi).symm
      · rw [if_neg fun h => hi ⟨hatMost.mp h.2.1, hless.mp h.2.2⟩]
        exact (if_neg hi).symm

theorem checkedSize_eq_sizeEntry (kind : Kind) : checkedSize kind = sizeEntry kind := by
  funext x
  have hmax : (ofInt maxRangeLength).toInt? = some (maxRangeLength : Int) :=
    toInt?_ofInt (by decide)
  rw [checkedSize, sizeEntry, less_zero, same_fract_zero]
  by_cases hbelow : x.isBelowZero
  · rw [if_pos hbelow, if_pos hbelow]
  rw [if_neg hbelow, if_neg hbelow]
  cases hx : x.toInt? with
  | none => rfl
  | some i =>
      have hnonneg := (isBelowZero_iff_of_toInt? hx).not.mp hbelow
      have hlarge : (ofInt maxRangeLength).less x ↔ (maxRangeLength : Int) < i :=
        less_iff_lt hmax hx
      rw [if_neg (by simp)]
      by_cases hi : (maxRangeLength : Int) < i
      · rw [if_pos (hlarge.mpr hi)]
        exact (if_pos hi).symm
      · have hbounds : i ≤ 2 ^ 64 - 1 := by
          simp only [maxRangeLength] at hi
          omega
        rw [if_neg (mt hlarge.mp hi), toBounded_of_toInt? hx (by omega) hbounds]
        exact (if_neg hi).symm

end CallSuite.Clause
