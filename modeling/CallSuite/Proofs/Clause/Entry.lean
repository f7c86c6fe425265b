import CallSuite.Clause.Entry
import CallSuite.Proofs.Binary64.Exact

namespace CallSuite

open CallSuite.Text

namespace Binary64

variable {x : Binary64} {i : Int}

theorem isNaN_of_toInt? (h : x.toInt? = some i) : x.isNaN = false := by
  unfold toInt? at h
  split at h
  next hwhole =>
    have hfinite : x.magnitude < infinity := of_decide_eq_true hwhole.1
    exact decide_eq_false (by omega)
  next => cases h

-- The negative zero is the integer zero and not below zero.
theorem isBelowZero_iff_of_toInt? (h : x.toInt? = some i) : x.isBelowZero ↔ i < 0 := by
  have hnan := isNaN_of_toInt? h
  unfold toInt? at h
  split at h
  next hwhole =>
    have hunits : x.units / unitsPerOne * unitsPerOne = x.units :=
      Nat.div_mul_cancel (Nat.dvd_of_mod_eq_zero hwhole.2)
    have hzero : x.units / unitsPerOne = 0 ↔ x.magnitude = 0 := by
      constructor
      · intro hdiv
        rw [hdiv, Nat.zero_mul] at hunits
        exact Decidable.byContradiction fun hpos => Nat.ne_of_lt (unitsOf_pos hpos) hunits
      · intro hmagnitude
        rw [units, hmagnitude]
        rfl
    simp only [Option.some.injEq] at h
    generalize x.units / unitsPerOne = n at hzero h
    simp only [isBelowZero, hnan, Bool.not_false, Bool.and_true, Bool.and_eq_true, bne_iff_ne,
      ne_eq, ← hzero, ← h]
    cases x.isNegative with
    | true =>
        simp only [true_and, ↓reduceIte]
        omega
    | false =>
        simp only [Bool.false_eq_true, false_and, ↓reduceIte, false_iff]
        omega
  next => cases h

end Binary64

namespace Clause

variable {x : Binary64}

theorem intEntry_eq_ok {i : Int} : intEntry x = .ok i ↔ x.toInt? = some i ∧ IsInt64 i := by
  unfold intEntry
  cases x.toInt? with
  | none => simp
  | some j =>
      by_cases hj : IsInt64 j
      · simp only [if_pos hj, Except.ok.injEq, Option.some.injEq]
        constructor
        · rintro rfl
          exact ⟨rfl, hj⟩
        · exact And.left
      · simp only [if_neg hj, reduceCtorEq, Option.some.injEq, false_iff, not_and]
        rintro rfl
        exact hj

theorem sizeEntry_eq_ok {kind : Kind} {n : Nat} :
    sizeEntry kind x = .ok n ↔ x.toInt? = some (n : Int) ∧ n ≤ maxRangeLength := by
  unfold sizeEntry
  cases hx : x.toInt? with
  | none => by_cases hbelow : x.isBelowZero <;> simp [hbelow]
  | some i =>
      have hbelow := Binary64.isBelowZero_iff_of_toInt? hx
      by_cases hi : i < 0
      · simp only [hbelow.mpr hi, ↓reduceIte, reduceCtorEq, Option.some.injEq, false_iff]
        omega
      · rw [if_neg (mt hbelow.mp hi)]
        by_cases hlarge : (maxRangeLength : Int) < i
        · simp only [if_pos hlarge, reduceCtorEq, Option.some.injEq, false_iff]
          omega
        · simp only [if_neg hlarge, Except.ok.injEq, Option.some.injEq]
          omega

end Clause

end CallSuite
