import CallSuite.Proofs.Scanning
import CallSuite.Proofs.Selection.Run
import Mathlib.Data.List.Perm.Subperm
import Mathlib.Data.List.Permutation

namespace CallSuite.Results

open Remaining

variable {r : Results} {picks : List Nat} {id i : Nat}

def caught (r : Results) (i : Nat) : IdSet := setAt r.catchSets i

theorem gain_ofResults (r : Results) (i : Nat) :
    (ofResults r).gain i = (r.caught i).filter (· ∈ r.wrongSet) :=
  setAt_map_filter _ r.catchSets i

theorem mem_gain_ofResults :
    id ∈ (ofResults r).gain i ↔ id ∈ r.caught i ∧ id ∈ r.wrongSet := by
  rw [gain_ofResults, OrderedSet.mem_filter, decide_eq_true_eq]

theorem lt_length_of_mem_gain_ofResults (h : id ∈ (ofResults r).gain i) : i < r.cases.length := by
  have hgains : (ofResults r).gains.length = r.cases.length := by
    rw [r.length_eq]
    exact List.length_map _
  have hlt := lt_length_of_mem_gain h
  omega

theorem exists_mem_caught_iff :
    (∃ i, id ∈ r.caught i) ↔ ∃ caught ∈ r.catchSets, id ∈ caught := by
  constructor
  · rintro ⟨i, hid⟩
    obtain ⟨caught, hi, hmem⟩ := mem_setAt.mp hid
    exact ⟨caught, List.mem_of_getElem? hi, hmem⟩
  · rintro ⟨caught, hcaught, hmem⟩
    obtain ⟨i, hi⟩ := List.mem_iff_getElem?.mp hcaught
    exact ⟨i, mem_setAt.mpr ⟨caught, hi, hmem⟩⟩

-- What makes a list of cases a good answer: no case is needless at its turn.
structure Selects (r : Results) (picks : List Nat) : Prop where
  lt_length : ∀ i ∈ picks, i < r.cases.length
  nodup : picks.Nodup
  length_le : picks.length ≤ min r.cases.length r.wrongSet.size
  covers : ∀ id ∈ r.wrongSet, ∃ i ∈ picks, id ∈ r.caught i
  gains : ∀ before i, before ++ [i] <+: picks →
    ∃ id ∈ r.wrongSet, id ∈ r.caught i ∧ ∀ j ∈ before, id ∉ r.caught j

-- The implementations of the wrong set that a run leaves are those that none of its cases catches.
theorem mem_uncovered_of_run {t : Remaining} (h : Run (ofResults r) picks t) :
    id ∈ t.uncovered ↔ id ∈ r.wrongSet ∧ ∀ i ∈ picks, id ∉ r.caught i := by
  rw [h.mem_uncovered_iff]
  have hstart : id ∈ (ofResults r).uncovered ↔ id ∈ r.wrongSet := Iff.rfl
  simp only [hstart, mem_gain_ofResults]
  constructor
  · rintro ⟨hwrong, hfree⟩
    exact ⟨hwrong, fun i hi hcaught => hfree i hi ⟨hcaught, hwrong⟩⟩
  · rintro ⟨hwrong, hfree⟩
    exact ⟨hwrong, fun i hi hgain => hfree i hi hgain.1⟩

theorem exists_run_of_eq_ok (h : r.conciseIndices = .ok picks) :
    ∃ t, Run (ofResults r) picks t ∧ ∀ id, id ∉ t.uncovered := by
  obtain ⟨t, hrun, hempty⟩ := run_of_picks_eq_ok h
  refine ⟨t, hrun, fun id hid => ?_⟩
  rw [← OrderedSet.mem_toList, List.isEmpty_iff.mp hempty] at hid
  cases hid

theorem covers_of_eq_ok (h : r.conciseIndices = .ok picks) :
    ∀ id ∈ r.wrongSet, ∃ i ∈ picks, id ∈ r.caught i := by
  obtain ⟨t, hrun, hempty⟩ := exists_run_of_eq_ok h
  intro id hwrong
  by_contra hnone
  push Not at hnone
  exact hempty id ((mem_uncovered_of_run hrun).mpr ⟨hwrong, hnone⟩)

theorem selects_of_eq_ok (h : r.conciseIndices = .ok picks) : r.Selects picks := by
  obtain ⟨t, hrun, _⟩ := exists_run_of_eq_ok h
  have hlt : ∀ i ∈ picks, i < r.cases.length := by
    intro i hi
    obtain ⟨id, hid⟩ := hrun.exists_mem_gain hi
    exact lt_length_of_mem_gain_ofResults hid
  refine ⟨hlt, hrun.nodup, ?_, covers_of_eq_ok h, ?_⟩
  · have hcases : picks.length ≤ r.cases.length := by
      have hsub : picks ⊆ List.range r.cases.length :=
        fun i hi => List.mem_range.mpr (hlt i hi)
      simpa using (hrun.nodup.subperm hsub).length_le
    have hwrong := hrun.length_add_size_le
    have hstart : (ofResults r).uncovered.size = r.wrongSet.size := rfl
    omega
  · rintro before i ⟨after, rfl⟩
    rw [List.append_assoc, List.singleton_append] at hrun
    obtain ⟨mid, caught, hmid, hbest⟩ := hrun.exists_best_of_append
    obtain ⟨id, hid⟩ := exists_mem_gain_of_best hbest
    have hleft := (mem_uncovered_of_run hmid).mp (mem_uncovered_of_mem_gain hid)
    have hgain := mem_gain_ofResults.mp ((hmid.mem_gain_iff i).mp hid).1
    exact ⟨id, hleft.1, hgain.1, hleft.2⟩

-- No place that was picked is out of range, so there is one case for each of them, in the order of
-- choice.
theorem map_some_filterMap_cases (h : r.conciseIndices = .ok picks) :
    (picks.filterMap (r.cases[·]?)).map some = picks.map (r.cases[·]?) := by
  rw [List.map_filterMap_some_eq_filter_map_isSome, List.filter_eq_self]
  intro case hcase
  obtain ⟨i, hi, rfl⟩ := List.mem_map.mp hcase
  simpa using (selects_of_eq_ok h).lt_length i hi

theorem conciseSet_eq_ok_iff {cases : List TestCase} : r.conciseSet = .ok cases ↔
    ∃ picks, r.conciseIndices = .ok picks ∧ picks.map (r.cases[·]?) = cases.map some := by
  have hmap : r.conciseSet = .ok cases ↔
      ∃ picks, r.conciseIndices = .ok picks ∧ picks.filterMap (r.cases[·]?) = cases := map_eq_ok
  rw [hmap]
  refine exists_congr fun picks => and_congr_right fun h => ?_
  rw [← map_some_filterMap_cases h, List.map_inj_right fun _ _ => Option.some.inj]

theorem conciseSet_eq_error_iff {e : Uncoverable} :
    r.conciseSet = .error e ↔ r.conciseIndices = .error e := map_eq_error

-- At a failure no case gains anything, so what is left was never caught by any.
theorem mem_ids_of_eq_error {e : Uncoverable} (h : r.conciseIndices = .error e) :
    id ∈ e.ids ↔ id ∈ r.wrongSet ∧ ∀ caught ∈ r.catchSets, id ∉ caught := by
  obtain ⟨picks, t, hrun, hbest, _, hids⟩ := run_of_picks_eq_error h
  rw [hids, mem_uncovered_of_run hrun]
  refine and_congr_right fun hwrong => ?_
  have hnone : (∀ caught ∈ r.catchSets, id ∉ caught) ↔ ∀ i, id ∉ r.caught i := by
    constructor
    · intro hfree i hi
      obtain ⟨caught, hcaught, hmem⟩ := exists_mem_caught_iff.mp ⟨i, hi⟩
      exact hfree caught hcaught hmem
    · intro hfree caught hcaught hmem
      obtain ⟨i, hi⟩ := exists_mem_caught_iff.mpr ⟨caught, hcaught, hmem⟩
      exact hfree i hi
  rw [hnone]
  constructor
  · intro hfree i hi
    have hgain := mem_gain_ofResults.mpr ⟨hi, hwrong⟩
    refine not_mem_gain_of_best_eq_none hbest ((hrun.mem_gain_iff i).mpr ⟨hgain, ?_⟩)
    intro j hj hgain
    exact hfree j hj (mem_gain_ofResults.mp hgain).1
  · exact fun hfree i _ => hfree i

theorem exists_mem_ids_of_eq_error {e : Uncoverable} (h : r.conciseIndices = .error e) :
    ∃ id, id ∈ e.ids := by
  obtain ⟨_, t, _, _, hne, hids⟩ := run_of_picks_eq_error h
  rw [hids]
  exact List.exists_mem_of_ne_nil _ fun hnil => hne (List.isEmpty_iff.mpr hnil)

theorem exists_eq_ok_iff : (∃ picks, r.conciseIndices = .ok picks) ↔
    ∀ id ∈ r.wrongSet, ∃ caught ∈ r.catchSets, id ∈ caught := by
  cases h : r.conciseIndices with
  | ok picks =>
      refine iff_of_true ⟨picks, rfl⟩ fun id hid => ?_
      obtain ⟨i, _, hcaught⟩ := covers_of_eq_ok h id hid
      exact exists_mem_caught_iff.mp ⟨i, hcaught⟩
  | error e =>
      refine iff_of_false (by rintro ⟨_, ⟨⟩⟩) fun hall => ?_
      obtain ⟨id, hid⟩ := exists_mem_ids_of_eq_error h
      obtain ⟨hwrong, hnone⟩ := (mem_ids_of_eq_error h).mp hid
      obtain ⟨caught, hcaught, hmem⟩ := hall id hwrong
      exact hnone caught hcaught hmem

theorem mem_wrongSet_of_ofCatchSets {cases : List TestCase} {catchSets : List IdSet}
    (h : ofCatchSets cases catchSets = .ok r) :
    id ∈ r.wrongSet ↔ ∃ caught ∈ r.catchSets, id ∈ caught := by
  unfold ofCatchSets ofWrongSet at h
  split at h <;> cases h
  simp

-- The selection succeeds where it can, and otherwise it names what no case catches. Where the
-- wrong set is what the cases catch it succeeds, and the chosen cases catch nothing else.
theorem conciseIndices_selects_or_names (r : Results) :
    ((∃ picks, r.conciseIndices = .ok picks) ↔
      ∀ id ∈ r.wrongSet, ∃ caught ∈ r.catchSets, id ∈ caught) ∧
    (∀ picks, r.conciseIndices = .ok picks → r.Selects picks) ∧
    (∀ e, r.conciseIndices = .error e →
      ∀ id, id ∈ e.ids ↔ id ∈ r.wrongSet ∧ ∀ caught ∈ r.catchSets, id ∉ caught) ∧
    ∀ cases catchSets, ofCatchSets cases catchSets = .ok r →
      ∃ picks, r.conciseIndices = .ok picks ∧
        ∀ id, (∃ i ∈ picks, id ∈ r.caught i) ↔ id ∈ r.wrongSet := by
  refine ⟨exists_eq_ok_iff, fun _ => selects_of_eq_ok, fun _ h _ => mem_ids_of_eq_error h, ?_⟩
  intro cases catchSets h
  obtain ⟨picks, hpicks⟩ := exists_eq_ok_iff.mpr
    fun id hid => (mem_wrongSet_of_ofCatchSets h).mp hid
  refine ⟨picks, hpicks, fun id => ⟨?_, covers_of_eq_ok hpicks id⟩⟩
  rintro ⟨i, _, hcaught⟩
  exact (mem_wrongSet_of_ofCatchSets h).mpr (exists_mem_caught_iff.mp ⟨i, hcaught⟩)

-- The second and the third case suffice, but the first one catches more than either.
def shadowed : Results where
  cases := [⟨[.int 0]⟩, ⟨[.int 1]⟩, ⟨[.int 2]⟩]
  catchSets := [⟨[1, 2, 3, 4], by decide⟩, ⟨[1, 3, 5], by decide⟩, ⟨[2, 4, 6], by decide⟩]
  wrongSet := ⟨[1, 2, 3, 4, 5, 6], by decide⟩
  length_eq := rfl

theorem conciseIndices_shadowed :
    ofCatchSets shadowed.cases shadowed.catchSets = .ok shadowed ∧
      ∃ picks, shadowed.conciseIndices = .ok picks ∧ shadowed.Selects picks ∧
        ∀ id, (∃ i ∈ picks, id ∈ shadowed.caught i) ↔ id ∈ shadowed.wrongSet := by
  have hbuilt : ofCatchSets shadowed.cases shadowed.catchSets = .ok shadowed := by cbv
  obtain ⟨_, hselects, _, hexact⟩ := conciseIndices_selects_or_names shadowed
  obtain ⟨picks, hpicks, hunion⟩ := hexact _ _ hbuilt
  exact ⟨hbuilt, picks, hpicks, hselects picks hpicks, hunion⟩

end CallSuite.Results
