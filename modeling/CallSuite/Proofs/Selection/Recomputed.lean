import CallSuite.Proofs.Selection.Covering
import Mathlib.Algebra.GroupWithZero.Nat

namespace CallSuite

namespace Results

-- The implementations of the wrong set that no case has caught so far.
def pending (r : Results) (before : List Nat) : IdSet :=
  r.wrongSet.filter fun id => ∀ j ∈ before, id ∉ r.caught j

-- What a case would add to the ones before it.
def fresh (r : Results) (before : List Nat) (i : Nat) : IdSet :=
  (r.caught i).filter (· ∈ r.pending before)

-- No case adds more, and those in front of it add less.
structure AddsMost (r : Results) (before : List Nat) (i : Nat) : Prop where
  lt_length : i < r.cases.length
  size_le : ∀ j < r.cases.length, (r.fresh before j).size ≤ (r.fresh before i).size
  size_lt : ∀ j < i, (r.fresh before j).size < (r.fresh before i).size

-- The greedy choice that keeps no state but the cases chosen before, and looks at what was observed
-- anew at every turn. It goes on as long as something is left to be caught.
inductive Recomputed (r : Results) : List Nat → List Nat → Prop where
  | stop (hdone : ∀ id, id ∉ r.pending before) : Recomputed r before []
  | pick (hpending : ∃ id, id ∈ r.pending before) (hmost : r.AddsMost before i)
      (h : Recomputed r (before ++ [i]) picks) : Recomputed r before (i :: picks)

-- What each case adds at its turn.
def gainsFrom (r : Results) (before : List Nat) : List Nat → List Nat
  | [] => []
  | i :: picks => (r.fresh before i).size :: r.gainsFrom (before ++ [i]) picks

open Remaining

variable {r : Results} {before picks : List Nat} {id i : Nat}

theorem mem_pending : id ∈ r.pending before ↔ id ∈ r.wrongSet ∧ ∀ j ∈ before, id ∉ r.caught j := by
  rw [pending, OrderedSet.mem_filter, decide_eq_true_eq]

theorem mem_fresh : id ∈ r.fresh before i ↔ id ∈ r.caught i ∧ id ∈ r.pending before := by
  rw [fresh, OrderedSet.mem_filter, decide_eq_true_eq]

theorem mem_pending_append : id ∈ r.pending (before ++ [i]) ↔
    id ∈ r.pending before ∧ id ∉ r.caught i := by
  simp only [mem_pending, List.forall_mem_append, List.forall_mem_singleton, and_assoc]

theorem pending_nil (r : Results) : r.pending [] = r.wrongSet :=
  OrderedSet.ext_mem fun id => by simp [mem_pending]

theorem size_fresh_append_le (r : Results) (before : List Nat) (i j : Nat) :
    (r.fresh (before ++ [i]) j).size ≤ (r.fresh before j).size := by
  refine (List.monotone_filter_right _ fun id hid => ?_).length_le
  have hpending := of_decide_eq_true hid
  exact decide_eq_true (mem_pending_append.mp hpending).1

-- A case takes what it adds from what is left.
theorem size_pending (r : Results) (before : List Nat) (i : Nat) :
    (r.pending before).size = (r.fresh before i).size + (r.pending (before ++ [i])).size := by
  have hsplit := List.length_eq_length_filter_add (l := (r.pending before).toList) (· ∈ r.caught i)
  have hfresh : (r.pending before).filter (· ∈ r.caught i) = r.fresh before i :=
    OrderedSet.ext_mem fun id => by
      rw [OrderedSet.mem_filter, decide_eq_true_eq, mem_fresh, and_comm]
  have hrest : (r.pending before).filter (· ∉ r.caught i) = r.pending (before ++ [i]) :=
    OrderedSet.ext_mem fun id => by
      rw [OrderedSet.mem_filter, decide_eq_true_eq, mem_pending_append]
  rw [← hfresh, ← hrest]
  simpa [OrderedSet.size, OrderedSet.filter] using hsplit

theorem AddsMost.unique {j : Nat} (hi : r.AddsMost before i) (hj : r.AddsMost before j) :
    i = j := by
  rcases Nat.lt_trichotomy i j with hlt | heq | hlt
  · have hless := hj.size_lt i hlt
    have hmost := hi.size_le j hj.lt_length
    omega
  · exact heq
  · have hless := hi.size_lt j hlt
    have hmost := hj.size_le i hi.lt_length
    omega

namespace Recomputed

theorem unique {picks' : List Nat} (h : r.Recomputed before picks)
    (h' : r.Recomputed before picks') : picks = picks' := by
  induction h generalizing picks' with
  | stop hdone =>
      cases h' with
      | stop => rfl
      | pick hpending =>
          obtain ⟨id, hid⟩ := hpending
          exact absurd hid (hdone id)
  | pick hpending hmost _ ih =>
      cases h' with
      | stop hdone =>
          obtain ⟨id, hid⟩ := hpending
          exact absurd hid (hdone id)
      | pick _ hmost' h' =>
          obtain rfl := hmost.unique hmost'
          rw [ih h']

theorem lt_length (h : r.Recomputed before picks) : ∀ i ∈ picks, i < r.cases.length := by
  induction h with
  | stop => simp
  | pick _ hmost _ ih => exact List.forall_mem_cons.mpr ⟨hmost.lt_length, ih⟩

theorem covers (h : r.Recomputed before picks) :
    ∀ id ∈ r.pending before, ∃ i ∈ picks, id ∈ r.caught i := by
  induction h with
  | stop hdone => exact fun id hid => absurd hid (hdone id)
  | @pick before i picks _ _ _ ih =>
      intro id hid
      by_cases hcaught : id ∈ r.caught i
      · exact ⟨i, by simp, hcaught⟩
      · obtain ⟨j, hj, hcaught⟩ := ih id (mem_pending_append.mpr ⟨hid, hcaught⟩)
        exact ⟨j, List.mem_cons_of_mem _ hj, hcaught⟩

-- What is left is caught later, so there is a case that adds something.
theorem gains_pos (h : r.Recomputed before picks) :
    ∀ gain ∈ r.gainsFrom before picks, 0 < gain := by
  induction h with
  | stop => simp [gainsFrom]
  | @pick before i picks hpending hmost h ih =>
      refine List.forall_mem_cons.mpr ⟨?_, ih⟩
      have hrun : r.Recomputed before (i :: picks) := .pick hpending hmost h
      obtain ⟨id, hid⟩ := hpending
      obtain ⟨j, hj, hcaught⟩ := hrun.covers id hid
      have hpos : 0 < (r.fresh before j).size :=
        List.length_pos_of_mem (mem_fresh.mpr ⟨hcaught, hid⟩)
      exact Nat.lt_of_lt_of_le hpos (hmost.size_le j (hrun.lt_length j hj))

theorem gains_le {n : Nat} (h : r.Recomputed before picks)
    (hn : ∀ j < r.cases.length, (r.fresh before j).size ≤ n) :
    ∀ gain ∈ r.gainsFrom before picks, gain ≤ n := by
  induction h with
  | stop => simp [gainsFrom]
  | pick _ hmost _ ih =>
      refine List.forall_mem_cons.mpr ⟨hn _ hmost.lt_length, ih fun j hj => ?_⟩
      exact (r.size_fresh_append_le _ _ j).trans (hn j hj)

-- What a case adds later it could have added before, and then it was not more than what was added.
theorem gains_pairwise (h : r.Recomputed before picks) :
    (r.gainsFrom before picks).Pairwise (· ≥ ·) := by
  induction h with
  | stop => exact .nil
  | pick _ hmost h ih =>
      refine List.pairwise_cons.mpr ⟨h.gains_le fun j hj => ?_, ih⟩
      exact (r.size_fresh_append_le _ _ j).trans (hmost.size_le j hj)

theorem sum_gains (h : r.Recomputed before picks) :
    (r.gainsFrom before picks).sum = (r.pending before).size := by
  induction h with
  | @stop before hdone =>
      have hempty : (r.pending before).toList = [] :=
        List.eq_nil_iff_forall_not_mem.mpr hdone
      rw [OrderedSet.size, hempty]
      rfl
  | @pick before i picks _ _ _ ih => rw [gainsFrom, List.sum_cons, ih, ← r.size_pending before i]

end Recomputed

-- What the loop has left for each case is what the case would add to those chosen so far.
theorem gain_of_run {s : Remaining} (h : Run (ofResults r) before s) (i : Nat) :
    s.gain i = r.fresh before i := by
  refine OrderedSet.ext_mem fun id => ?_
  rw [h.mem_gain_iff, mem_gain_ofResults, mem_fresh, mem_pending, and_assoc]
  refine and_congr_right fun _ => and_congr_right fun hwrong => ?_
  simp only [mem_gain_ofResults, hwrong, and_true]

theorem addsMost_of_best {s : Remaining} {caught : IdSet} (h : Run (ofResults r) before s)
    (hbest : s.best = some (i, caught)) : r.AddsMost before i := by
  have hgreatest := greatest_of_best hbest
  have hgain := gain_eq_of_best hbest
  obtain ⟨id, hid⟩ := exists_mem_gain_of_best hbest
  refine ⟨lt_length_of_mem_gain_ofResults ((h.mem_gain_iff i).mp hid).1, fun j _ => ?_,
    fun j hj => ?_⟩
  · rw [← gain_of_run h, ← gain_of_run h, hgain]
    exact size_gain_le_of_best hbest j
  · rw [← gain_of_run h, ← gain_of_run h, hgain]
    exact size_gain_lt_of_best hbest hj

theorem recomputed_of_run {s t : Remaining} (hbefore : Run (ofResults r) before s)
    (h : Run s picks t) (hend : ∀ id, id ∉ t.uncovered) : r.Recomputed before picks := by
  induction h generalizing before with
  | nil =>
      exact .stop fun id hid => hend id ((mem_uncovered_of_run hbefore).mpr (mem_pending.mp hid))
  | cons hbest _ ih =>
      obtain ⟨id, hid⟩ := exists_mem_gain_of_best hbest
      have hpending := (mem_uncovered_of_run hbefore).mp (mem_uncovered_of_mem_gain hid)
      exact .pick ⟨id, mem_pending.mpr hpending⟩ (addsMost_of_best hbefore hbest)
        (ih (hbefore.append (.cons hbest .nil)) hend)

-- The selection is the one that a recomputation of all gains at every turn leads to. The gains
-- never grow, and they make up the wrong set.
theorem conciseIndices_recomputed (h : r.conciseIndices = .ok picks) :
    (∀ run, r.Recomputed [] run ↔ run = picks) ∧
      (∀ gain ∈ r.gainsFrom [] picks, 0 < gain) ∧
      (r.gainsFrom [] picks).Pairwise (· ≥ ·) ∧
      (r.gainsFrom [] picks).sum = r.wrongSet.size := by
  obtain ⟨t, hrun, hend⟩ := exists_run_of_eq_ok h
  have hrecomputed : r.Recomputed [] picks := recomputed_of_run .nil hrun hend
  refine ⟨fun run => ⟨fun hrun => hrun.unique hrecomputed, ?_⟩, hrecomputed.gains_pos,
    hrecomputed.gains_pairwise, ?_⟩
  · rintro rfl
    exact hrecomputed
  · rw [hrecomputed.sum_gains, pending_nil]

-- Three cases catch two wrong implementations each, and after the first of them one is left.
def tied : Results where
  cases := [⟨[.int 0]⟩, ⟨[.int 1]⟩, ⟨[.int 2]⟩, ⟨[.int 3]⟩]
  catchSets := [⟨[6], by decide⟩, ⟨[7, 8], by decide⟩, ⟨[8, 9], by decide⟩, ⟨[7, 9], by decide⟩]
  wrongSet := ⟨[7, 8, 9], by decide⟩
  length_eq := rfl

theorem conciseIndices_tied : tied.conciseIndices = .ok [1, 2] ∧
    (∀ run, tied.Recomputed [] run ↔ run = [1, 2]) ∧ tied.gainsFrom [] [1, 2] = [2, 1] ∧
    [2, 1].Pairwise (· ≥ ·) ∧ [2, 1].sum = tied.wrongSet.size := by
  have hpicks : tied.conciseIndices = .ok [1, 2] := by cbv
  have hgains : tied.gainsFrom [] [1, 2] = [2, 1] := by decide
  obtain ⟨hrun, _, hpairwise, hsum⟩ := conciseIndices_recomputed hpicks
  rw [hgains] at hpairwise hsum
  exact ⟨hpicks, hrun, hgains, hpairwise, hsum⟩

end Results

end CallSuite
