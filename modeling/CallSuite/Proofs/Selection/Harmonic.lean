import CallSuite.Proofs.Selection.Covering
import Mathlib.Algebra.BigOperators.Field
import Mathlib.Algebra.Order.BigOperators.Group.Finset
import Mathlib.Algebra.Order.Field.Basic
import Mathlib.NumberTheory.Harmonic.Defs
import Mathlib.Tactic.Linarith

namespace CallSuite

-- From `small` to `large` every term of the harmonic sum is at least `1 / bound`.
theorem div_le_harmonic_sub {small large bound : Nat} (hle : small ≤ large)
    (hbound : large ≤ bound) :
    ((large - small : Nat) : ℚ) / bound ≤ harmonic large - harmonic small := by
  induction large, hle using Nat.le_induction with
  | base => simp
  | succ large hle ih =>
      have hlarge := ih (by omega)
      have hterm : (1 : ℚ) / bound ≤ ((large + 1 : Nat) : ℚ)⁻¹ := by
        rw [← one_div]
        have hpos : (0 : ℚ) < ((large + 1 : Nat) : ℚ) := by exact_mod_cast large.succ_pos
        exact one_div_le_one_div_of_le hpos (by exact_mod_cast hbound)
      rw [harmonic_succ, Nat.succ_sub hle, Nat.cast_succ, add_div]
      linarith

theorem harmonic_mono {m n : Nat} (h : m ≤ n) : harmonic m ≤ harmonic n := by
  have hsub := div_le_harmonic_sub h (Nat.le_refl n)
  have hnonneg : (0 : ℚ) ≤ ((n - m : Nat) : ℚ) / n :=
    div_nonneg (Nat.cast_nonneg _) (Nat.cast_nonneg _)
  linarith

namespace Remaining

variable {s t : Remaining} {caught : IdSet} {chosen : List Nat} {cover : Finset Nat} {i : Nat}

def Covers (s : Remaining) (cover : Finset Nat) : Prop :=
  ∀ id ∈ s.uncovered, ∃ i ∈ cover, id ∈ s.gain i

theorem Covers.remove (h : s.Covers cover) (caught : IdSet) : (s.remove caught).Covers cover := by
  intro id hid
  obtain ⟨hleft, hfree⟩ := mem_uncovered_remove.mp hid
  obtain ⟨i, hi, hgain⟩ := h id hleft
  exact ⟨i, hi, mem_gain_remove.mpr ⟨hgain, hfree⟩⟩

theorem size_gain_eq_add (s : Remaining) (caught : IdSet) (i : Nat) :
    (s.gain i).size =
      ((s.remove caught).gain i).size + ((s.gain i).filter (· ∈ caught)).size := by
  rw [gain_remove, Nat.add_comm]
  have hsplit := List.length_eq_length_filter_add (l := (s.gain i).toList) (· ∈ caught)
  simpa [OrderedSet.size, OrderedSet.filter] using hsplit

-- The cases of a cover lose together at least what the chosen case gains.
theorem size_le_sum_lost (hcover : s.Covers cover) (hbest : s.best = some (i, caught)) :
    caught.size ≤ ∑ j ∈ cover, ((s.gain j).size - ((s.remove caught).gain j).size) := by
  have hlost : ∀ j, (s.gain j).size - ((s.remove caught).gain j).size =
      ((s.gain j).filter (· ∈ caught)).toList.toFinset.card := by
    intro j
    rw [List.toFinset_card_of_nodup (OrderedSet.nodup_toList _), s.size_gain_eq_add caught j]
    exact Nat.add_sub_cancel_left _ _
  have hsub : caught.toList.toFinset ⊆
      cover.biUnion fun j => ((s.gain j).filter (· ∈ caught)).toList.toFinset := by
    intro id hid
    rw [List.mem_toFinset, OrderedSet.mem_toList] at hid
    have hleft : id ∈ s.uncovered := by
      rw [← gain_eq_of_best hbest] at hid
      exact mem_uncovered_of_mem_gain hid
    obtain ⟨j, hj, hgain⟩ := hcover id hleft
    refine Finset.mem_biUnion.mpr ⟨j, hj, List.mem_toFinset.mpr ?_⟩
    exact OrderedSet.mem_filter.mpr ⟨hgain, decide_eq_true hid⟩
  calc caught.size = caught.toList.toFinset.card :=
        (List.toFinset_card_of_nodup caught.nodup_toList).symm
    _ ≤ _ := Finset.card_le_card hsub
    _ ≤ _ := Finset.card_biUnion_le
    _ = _ := Finset.sum_congr rfl fun j _ => (hlost j).symm

-- The charge of a choice is spread over the cases of a cover: one that loses `k` of its `n`
-- remaining implementations pays the last `k` terms of the harmonic sum of `n`.
theorem one_add_sum_harmonic_le (hcover : s.Covers cover) (hbest : s.best = some (i, caught)) :
    1 + ∑ j ∈ cover, harmonic ((s.remove caught).gain j).size ≤
      ∑ j ∈ cover, harmonic (s.gain j).size := by
  have hpos : (0 : ℚ) < caught.size := by exact_mod_cast (greatest_of_best hbest).size_pos
  have hcharge : ∀ j ∈ cover,
      (((s.gain j).size - ((s.remove caught).gain j).size : Nat) : ℚ) / caught.size ≤
        harmonic (s.gain j).size - harmonic ((s.remove caught).gain j).size := by
    intro j _
    refine div_le_harmonic_sub ?_ (size_gain_le_of_best hbest j)
    have := s.size_gain_eq_add caught j
    omega
  have hsum := Finset.sum_le_sum hcharge
  rw [← Finset.sum_div, Finset.sum_sub_distrib, ← Nat.cast_sum] at hsum
  have hone : (1 : ℚ) ≤
      ((∑ j ∈ cover, ((s.gain j).size - ((s.remove caught).gain j).size) : Nat) : ℚ) /
        caught.size := by
    rw [one_le_div hpos]
    exact_mod_cast size_le_sum_lost hcover hbest
  linarith

theorem Run.length_le_sum_harmonic (h : Run s chosen t) (hcover : s.Covers cover) :
    (chosen.length : ℚ) ≤ ∑ i ∈ cover, harmonic (s.gain i).size := by
  induction h with
  | nil =>
      have hnonneg : ∀ n, (0 : ℚ) ≤ harmonic n := fun n => harmonic_mono n.zero_le
      simpa using Finset.sum_nonneg fun i _ => hnonneg _
  | cons hbest _ ih =>
      have hrest := ih (hcover.remove _)
      have hcharge := one_add_sum_harmonic_le hcover hbest
      push_cast [List.length_cons]
      linarith

end Remaining

namespace Results

open Remaining

variable {r : Results} {picks : List Nat}

-- The size of the greatest catch set, of which only the wrong implementations count.
def greatestCatch (r : Results) : Nat :=
  (r.catchSets.map fun caught => (caught.filter (· ∈ r.wrongSet)).size).foldr max 0

theorem size_gain_le_greatestCatch (r : Results) (i : Nat) :
    ((ofResults r).gain i).size ≤ r.greatestCatch := by
  rw [gain_ofResults, caught, setAt]
  cases hi : r.catchSets[i]? with
  | none => exact Nat.zero_le _
  | some caught =>
      have hmem := List.mem_map_of_mem (f := fun caught : IdSet =>
        (caught.filter (· ∈ r.wrongSet)).size) (List.mem_of_getElem? hi)
      exact List.le_max_of_le hmem (Nat.le_refl _)

-- Against every cover the selection is at most a harmonic factor longer.
theorem length_conciseIndices_le_harmonic (h : r.conciseIndices = .ok picks) (cover : Finset Nat)
    (hcover : ∀ id ∈ r.wrongSet, ∃ i ∈ cover, id ∈ r.caught i) :
    (picks.length : ℚ) ≤ harmonic r.greatestCatch * cover.card := by
  obtain ⟨t, hrun, _⟩ := exists_run_of_eq_ok h
  have hstart : (ofResults r).Covers cover := by
    intro id hwrong
    obtain ⟨i, hi, hcaught⟩ := hcover id hwrong
    exact ⟨i, hi, mem_gain_ofResults.mpr ⟨hcaught, hwrong⟩⟩
  calc (picks.length : ℚ) ≤ ∑ i ∈ cover, harmonic ((ofResults r).gain i).size :=
        hrun.length_le_sum_harmonic hstart
    _ ≤ ∑ _i ∈ cover, harmonic r.greatestCatch :=
        Finset.sum_le_sum fun i _ => harmonic_mono (r.size_gain_le_greatestCatch i)
    _ = harmonic r.greatestCatch * cover.card := by
        rw [Finset.sum_const, nsmul_eq_mul, mul_comm]

theorem length_conciseIndices_shadowed :
    shadowed.conciseIndices = .ok [0, 1, 2] ∧
      (∀ id ∈ shadowed.wrongSet, ∃ i ∈ ({1, 2} : Finset Nat), id ∈ shadowed.caught i) ∧
      (3 : ℚ) ≤ harmonic shadowed.greatestCatch * 2 := by
  have hpicks : shadowed.conciseIndices = .ok [0, 1, 2] := by cbv
  have hcover : ∀ id ∈ shadowed.wrongSet.toList,
      ∃ i ∈ ({1, 2} : Finset Nat), id ∈ shadowed.caught i := by decide
  exact ⟨hpicks, hcover, length_conciseIndices_le_harmonic hpicks {1, 2} hcover⟩

end Results

end CallSuite
