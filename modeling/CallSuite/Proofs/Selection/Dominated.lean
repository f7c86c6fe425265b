import CallSuite.Proofs.Selection.Covering

namespace CallSuite

-- The place of an entry after the one at place `j` was taken out.
def closeUp (j i : Nat) : Nat := if j < i then i - 1 else i

section CloseUp

variable {j : Nat} {α : Type} {xs : List α}

theorem getElem?_eraseIdx_closeUp {i : Nat} (hi : i ≠ j) :
    (xs.eraseIdx j)[closeUp j i]? = xs[i]? := by
  unfold closeUp
  split
  · rw [List.getElem?_eraseIdx_of_ge (by omega)]
    congr 1
    omega
  · rw [List.getElem?_eraseIdx_of_lt (by omega)]

theorem exists_getElem?_of_eraseIdx {k : Nat} {x : α} (h : (xs.eraseIdx j)[k]? = some x) :
    ∃ i, closeUp j i = k ∧ i ≠ j ∧ xs[i]? = some x := by
  rw [List.getElem?_eraseIdx] at h
  unfold closeUp
  split at h
  · exact ⟨k, by rw [if_neg (by omega)], by omega, h⟩
  · exact ⟨k + 1, by rw [if_pos (by omega)]; rfl, by omega, h⟩

end CloseUp

section Best

variable {gains : List IdSet} {i j : Nat} {best : IdSet}

-- Nothing comes to stand in front of what was behind it.
theorem Greatest.eraseIdx (h : Greatest gains i best) (hi : i ≠ j) :
    Greatest (gains.eraseIdx j) (closeUp j i) best where
  get_eq := by rw [getElem?_eraseIdx_closeUp hi, h.get_eq]
  size_pos := h.size_pos
  size_le := fun gain hgain => h.size_le gain (List.mem_of_mem_eraseIdx hgain)
  size_lt := by
    intro k gain hk hlt
    obtain ⟨l, rfl, _, hl⟩ := exists_getElem?_of_eraseIdx hk
    refine h.size_lt l gain hl ?_
    unfold closeUp at hlt
    split at hlt <;> split at hlt <;> omega

theorem IsBest.unique {found found' : Option (Nat × IdSet)} (h : IsBest gains found)
    (h' : IsBest gains found') : found = found' := by
  have hnone {i : Nat} {best : IdSet} (hzero : IsBest gains none) (h : Greatest gains i best) :
      False := by
    have hsize : best.size = 0 := hzero best (List.mem_of_getElem? h.get_eq)
    have hpos := h.size_pos
    omega
  cases found with
  | none => cases found' with
    | none => rfl
    | some _ => exact (hnone h h').elim
  | some first => cases found' with
    | none => exact (hnone h' h).elim
    | some second =>
        obtain ⟨i, best⟩ := first
        obtain ⟨i', best'⟩ := second
        have hbest : Greatest gains i best := h
        have hbest' : Greatest gains i' best' := h'
        have hle := hbest.size_le best' (List.mem_of_getElem? hbest'.get_eq)
        have hle' := hbest'.size_le best (List.mem_of_getElem? hbest.get_eq)
        have hge : ¬ i < i' := fun hlt => by
          have := hbest'.size_lt i best hbest.get_eq hlt
          omega
        have hge' : ¬ i' < i := fun hlt => by
          have := hbest.size_lt i' best' hbest'.get_eq hlt
          omega
        obtain rfl : i = i' := by omega
        have heq := hbest.get_eq.symm.trans hbest'.get_eq
        rw [Option.some.inj heq]

end Best

namespace Remaining

variable {s t : Remaining} {i j : Nat} {caught : IdSet} {chosen : List Nat}

-- Case `i` comes first and has everything left that case `j` has.
structure Dominates (s : Remaining) (i j : Nat) : Prop where
  lt : i < j
  subset : ∀ id ∈ s.gain j, id ∈ s.gain i

def without (s : Remaining) (j : Nat) : Remaining where
  uncovered := s.uncovered
  gains := s.gains.eraseIdx j
  subset := fun gain hgain => s.subset gain (List.mem_of_mem_eraseIdx hgain)

theorem remove_without (s : Remaining) (caught : IdSet) (j : Nat) :
    (s.without j).remove caught = (s.remove caught).without j := by
  simp only [remove, without, List.eraseIdx_map]

theorem Dominates.remove (h : s.Dominates i j) (caught : IdSet) :
    (s.remove caught).Dominates i j where
  lt := h.lt
  subset := by
    intro id hid
    obtain ⟨hgain, hfree⟩ := mem_gain_remove.mp hid
    exact mem_gain_remove.mpr ⟨h.subset id hgain, hfree⟩

theorem Dominates.size_le (h : s.Dominates i j) : (s.gain j).size ≤ (s.gain i).size := by
  have hsub : (s.gain j).toList ⊆ (s.gain i).toList := h.subset
  exact ((s.gain j).nodup_toList.subperm hsub).length_le

-- The first of the greatest gains stands in front of a gain that is dominated.
theorem Dominates.ne_of_best {k : Nat} (h : s.Dominates i j) (hbest : s.best = some (k, caught)) :
    k ≠ j := by
  rintro rfl
  have hlt := size_gain_lt_of_best hbest h.lt
  have hle := h.size_le
  rw [gain_eq_of_best hbest] at hle
  omega

theorem Dominates.best_without (h : s.Dominates i j) :
    (s.without j).best = s.best.map fun (k, caught) => (closeUp j k, caught) := by
  refine (s.without j).isBest_best.unique ?_
  cases hbest : s.best with
  | none =>
      intro gain hgain
      have hzero := s.isBest_best
      rw [hbest] at hzero
      exact hzero gain (List.mem_of_mem_eraseIdx hgain)
  | some found =>
      obtain ⟨k, caught⟩ := found
      exact (greatest_of_best hbest).eraseIdx (h.ne_of_best hbest)

section Picks

theorem picks_of_isEmpty (h : s.uncovered.isEmpty) : s.picks = .ok [] := by
  rw [picks, if_pos h]

theorem picks_of_best_eq_none (h : ¬ s.uncovered.isEmpty) (hbest : s.best = none) :
    s.picks = .error ⟨s.uncovered⟩ := by
  rw [picks, if_neg h]
  split
  · rfl
  next hsome =>
    rw [hbest] at hsome
    cases hsome

theorem picks_of_best (h : ¬ s.uncovered.isEmpty) (hbest : s.best = some (i, caught)) :
    s.picks = (i :: ·) <$> (s.remove caught).picks := by
  rw [picks, if_neg h]
  split
  next hnone =>
    rw [hbest] at hnone
    cases hnone
  next hsome =>
    rw [hbest] at hsome
    cases hsome
    rfl

end Picks

-- Both runs choose the same case at every turn, so they stay side by side.
theorem Dominates.picks_without (h : s.Dominates i j) :
    (s.without j).picks = s.picks.map (List.map (closeUp j)) := by
  fun_induction picks s with
  | case1 s hempty => exact picks_of_isEmpty hempty
  | case2 s hempty hbest =>
      have hnone : (s.without j).best = none := by rw [h.best_without, hbest, Option.map_none]
      exact picks_of_best_eq_none hempty hnone
  | case3 s hempty k caught hbest ih =>
      have hsome : (s.without j).best = some (closeUp j k, caught) := by
        rw [h.best_without, hbest, Option.map_some]
      have hopen : ¬ (s.without j).uncovered.isEmpty := hempty
      rw [picks_of_best hopen hsome, remove_without, ih (h.remove caught)]
      cases (s.remove caught).picks <;> rfl

theorem Run.not_mem_of_dominates (h : Run s chosen t) (hdom : s.Dominates i j) : j ∉ chosen := by
  induction h with
  | nil => simp
  | cons hbest _ ih =>
      simp only [List.mem_cons, not_or]
      exact ⟨(hdom.ne_of_best hbest).symm, ih (hdom.remove _)⟩

end Remaining

namespace Results

open Remaining

variable {r : Results} {i j : Nat} {picks : List Nat}

-- What was observed without case `j`. The wrong set stays.
def without (r : Results) (j : Nat) : Results where
  cases := r.cases.eraseIdx j
  catchSets := r.catchSets.eraseIdx j
  wrongSet := r.wrongSet
  length_eq := by rw [List.length_eraseIdx, List.length_eraseIdx, r.length_eq]

theorem ofResults_without (r : Results) (j : Nat) :
    ofResults (r.without j) = (ofResults r).without j := by
  simp only [ofResults, without, Remaining.without, List.eraseIdx_map]
  rfl

theorem dominates_ofResults (hij : i < j)
    (hsub : ∀ id ∈ r.wrongSet, id ∈ r.caught j → id ∈ r.caught i) :
    (ofResults r).Dominates i j where
  lt := hij
  subset := by
    intro id hid
    obtain ⟨hcaught, hwrong⟩ := mem_gain_ofResults.mp hid
    exact mem_gain_ofResults.mpr ⟨hsub id hwrong hcaught, hwrong⟩

theorem filterMap_cases_without (hj : j ∉ picks) :
    (picks.map (closeUp j)).filterMap ((r.without j).cases[·]?) =
      picks.filterMap (r.cases[·]?) := by
  rw [List.filterMap_map]
  refine List.filterMap_congr fun k hk => ?_
  have hne : k ≠ j := fun heq => hj (heq ▸ hk)
  exact getElem?_eraseIdx_closeUp hne

-- A case that catches no more than an earlier one makes no difference. It is never chosen, and
-- without it the choice is the same.
theorem conciseIndices_without_dominated (hij : i < j)
    (hsub : ∀ id ∈ r.wrongSet, id ∈ r.caught j → id ∈ r.caught i) :
    (r.without j).conciseIndices = r.conciseIndices.map (List.map (closeUp j)) ∧
      (r.without j).conciseSet = r.conciseSet ∧
      ∀ picks, r.conciseIndices = .ok picks → j ∉ picks := by
  have hdom := dominates_ofResults hij hsub
  have hindices : (r.without j).conciseIndices = r.conciseIndices.map (List.map (closeUp j)) := by
    rw [conciseIndices, ofResults_without]
    exact hdom.picks_without
  have hnever : ∀ picks, r.conciseIndices = .ok picks → j ∉ picks := by
    intro picks hpicks
    obtain ⟨t, hrun, _⟩ := run_of_picks_eq_ok hpicks
    exact hrun.not_mem_of_dominates hdom
  refine ⟨hindices, ?_, hnever⟩
  rw [conciseSet, conciseSet, hindices]
  cases hpicks : r.conciseIndices with
  | error e => rfl
  | ok picks => exact congrArg Except.ok (filterMap_cases_without (hnever picks hpicks))

-- Of what the third case catches only implementation 20 is wrong, and the first case catches it.
def redundant : Results where
  cases := [⟨[.int 5]⟩, ⟨[.int 6]⟩, ⟨[.int 7]⟩, ⟨[.int 8]⟩]
  catchSets := [⟨[10, 20], by decide⟩, ⟨[20, 30], by decide⟩, ⟨[20, 90], by decide⟩,
    ⟨[30, 40], by decide⟩]
  wrongSet := ⟨[10, 20, 30, 40], by decide⟩
  length_eq := rfl

theorem conciseIndices_without_redundant : redundant.conciseIndices = .ok [0, 3] ∧
    (∀ id ∈ redundant.wrongSet, id ∈ redundant.caught 2 → id ∈ redundant.caught 0) ∧
    (redundant.without 2).conciseIndices = .ok [0, 2] ∧
    (redundant.without 2).conciseSet = redundant.conciseSet ∧ 2 ∉ [0, 3] := by
  have hpicks : redundant.conciseIndices = .ok [0, 3] := by cbv
  have hsub : ∀ id ∈ redundant.wrongSet.toList,
      id ∈ redundant.caught 2 → id ∈ redundant.caught 0 := by decide
  obtain ⟨hindices, hset, hnever⟩ :=
    conciseIndices_without_dominated (r := redundant) (by decide : 0 < 2) hsub
  rw [hpicks] at hindices
  exact ⟨hpicks, hsub, hindices, hset, hnever [0, 3] hpicks⟩

end Results

end CallSuite
