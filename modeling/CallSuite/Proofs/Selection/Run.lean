import CallSuite.Proofs.Ordered
import CallSuite.Selection.Greedy

namespace CallSuite

-- The first of the greatest gains, which is not empty.
structure Greatest (gains : List IdSet) (i : Nat) (best : IdSet) : Prop where
  get_eq : gains[i]? = some best
  size_pos : 0 < best.size
  size_le : ∀ gain ∈ gains, gain.size ≤ best.size
  size_lt : ∀ (j : Nat) (gain : IdSet), gains[j]? = some gain → j < i → gain.size < best.size

def IsBest (gains : List IdSet) : Option (Nat × IdSet) → Prop
  | none => ∀ gain ∈ gains, gain.size = 0
  | some (i, best) => Greatest gains i best

section Step

variable {seen : List IdSet} {i : Nat} {best gain : IdSet}

theorem Greatest.append_singleton (h : Greatest seen i best) (hle : gain.size ≤ best.size) :
    Greatest (seen ++ [gain]) i best := by
  obtain ⟨hi, _⟩ := List.getElem?_eq_some_iff.mp h.get_eq
  refine ⟨?_, h.size_pos, ?_, ?_⟩
  · rw [List.getElem?_append_left hi, h.get_eq]
  · intro other hother
    rcases List.mem_append.mp hother with hseen | hlast
    · exact h.size_le other hseen
    · rw [List.mem_singleton.mp hlast]
      exact hle
  · intro j other hj hlt
    rw [List.getElem?_append_left (by omega)] at hj
    exact h.size_lt j other hj hlt

-- What beats everything in front of it is the first of its size.
theorem greatest_append_singleton (hpos : 0 < gain.size)
    (hlt : ∀ other ∈ seen, other.size < gain.size) :
    Greatest (seen ++ [gain]) seen.length gain := by
  refine ⟨by simp, hpos, ?_, ?_⟩
  · intro other hother
    rcases List.mem_append.mp hother with hseen | hlast
    · exact Nat.le_of_lt (hlt other hseen)
    · exact Nat.le_of_eq (congrArg OrderedSet.size (List.mem_singleton.mp hlast))
  · intro j other hj hbefore
    rw [List.getElem?_append_left hbefore] at hj
    exact hlt other (List.mem_of_getElem? hj)

theorem IsBest.append_singleton {best : Option (Nat × IdSet)} (h : IsBest seen best)
    (gain : IdSet) :
    IsBest (seen ++ [gain]) (if beats gain best then some (seen.length, gain) else best) := by
  cases best with
  | none =>
      have hzero : ∀ other ∈ seen, other.size = 0 := h
      by_cases hpos : 0 < gain.size
      · rw [if_pos (by simpa [beats] using hpos)]
        refine greatest_append_singleton hpos fun other hother => ?_
        rw [hzero other hother]
        exact hpos
      · rw [if_neg (by simpa [beats] using hpos)]
        intro other hother
        rcases List.mem_append.mp hother with hseen | hlast
        · exact hzero other hseen
        · rw [List.mem_singleton.mp hlast]
          omega
  | some found =>
      obtain ⟨i, best⟩ := found
      have hbest : Greatest seen i best := h
      by_cases hlt : best.size < gain.size
      · rw [if_pos (by simpa [beats] using hlt)]
        refine greatest_append_singleton (by omega) fun other hother => ?_
        have hle := hbest.size_le other hother
        omega
      · rw [if_neg (by simpa [beats] using hlt)]
        exact hbest.append_singleton (by omega)

end Step

theorem IsBest.bestFrom {seen : List IdSet} {best : Option (Nat × IdSet)} (h : IsBest seen best)
    (gains : List IdSet) : IsBest (seen ++ gains) (bestFrom best seen.length gains) := by
  induction gains generalizing seen best with
  | nil =>
      rw [List.append_nil]
      exact h
  | cons gain gains ih =>
      have hstep := ih (h.append_singleton gain)
      rw [List.length_append, List.append_assoc] at hstep
      exact hstep

-- The set at place `i`, which is empty behind the end.
def setAt (sets : List IdSet) (i : Nat) : IdSet := sets[i]?.getD ⟨[], .nil⟩

theorem mem_setAt {sets : List IdSet} {i id : Nat} :
    id ∈ setAt sets i ↔ ∃ set, sets[i]? = some set ∧ id ∈ set := by
  unfold setAt
  cases sets[i]? with
  | none =>
      have hempty : id ∉ (⟨[], .nil⟩ : IdSet) := List.not_mem_nil
      simp [hempty]
  | some set => simp

theorem setAt_map_filter (p : Nat → Bool) (sets : List IdSet) (i : Nat) :
    setAt (sets.map (·.filter p)) i = (setAt sets i).filter p := by
  simp only [setAt, List.getElem?_map]
  cases sets[i]? <;> rfl

namespace Remaining

-- Cases taken one after the other, each with the greatest gain at its turn.
inductive Run : Remaining → List Nat → Remaining → Prop where
  | nil : Run s [] s
  | cons (hbest : s.best = some (i, caught)) (h : Run (s.remove caught) chosen t) :
      Run s (i :: chosen) t

variable {s t : Remaining} {i id : Nat} {caught : IdSet} {chosen : List Nat}

def gain (s : Remaining) (i : Nat) : IdSet := setAt s.gains i

theorem mem_uncovered_of_mem_gain (h : id ∈ s.gain i) : id ∈ s.uncovered := by
  obtain ⟨gain, hi, hid⟩ := mem_setAt.mp h
  exact s.subset gain (List.mem_of_getElem? hi) id hid

theorem lt_length_of_mem_gain (h : id ∈ s.gain i) : i < s.gains.length := by
  obtain ⟨gain, hi, _⟩ := mem_setAt.mp h
  exact (List.getElem?_eq_some_iff.mp hi).1

theorem gain_remove (s : Remaining) (caught : IdSet) (i : Nat) :
    (s.remove caught).gain i = (s.gain i).filter (· ∉ caught) :=
  setAt_map_filter _ s.gains i

theorem mem_gain_remove : id ∈ (s.remove caught).gain i ↔ id ∈ s.gain i ∧ id ∉ caught := by
  rw [gain_remove, OrderedSet.mem_filter, decide_eq_true_eq]

theorem mem_uncovered_remove :
    id ∈ (s.remove caught).uncovered ↔ id ∈ s.uncovered ∧ id ∉ caught := by
  rw [remove, OrderedSet.mem_filter, decide_eq_true_eq]

theorem isBest_best (s : Remaining) : IsBest s.gains s.best := by
  have hnil : IsBest [] none := by
    intro gain hgain
    cases hgain
  exact hnil.bestFrom s.gains

theorem greatest_of_best (h : s.best = some (i, caught)) : Greatest s.gains i caught := by
  have hbest := s.isBest_best
  rw [h] at hbest
  exact hbest

theorem gain_eq_of_best (h : s.best = some (i, caught)) : s.gain i = caught := by
  rw [gain, setAt, (greatest_of_best h).get_eq]
  rfl

theorem size_gain_le_of_best (h : s.best = some (i, caught)) (j : Nat) :
    (s.gain j).size ≤ caught.size := by
  unfold gain setAt
  cases hj : s.gains[j]? with
  | none => exact Nat.zero_le _
  | some gain => exact (greatest_of_best h).size_le gain (List.mem_of_getElem? hj)

theorem size_gain_lt_of_best {j : Nat} (h : s.best = some (i, caught)) (hj : j < i) :
    (s.gain j).size < caught.size := by
  have hgreatest := greatest_of_best h
  obtain ⟨hi, _⟩ := List.getElem?_eq_some_iff.mp hgreatest.get_eq
  have hget : s.gains[j]? = some s.gains[j] := List.getElem?_eq_getElem (Nat.lt_trans hj hi)
  rw [gain, setAt, hget]
  exact hgreatest.size_lt j _ hget hj

theorem exists_mem_gain_of_best (h : s.best = some (i, caught)) : ∃ id, id ∈ s.gain i := by
  rw [gain_eq_of_best h]
  exact List.exists_mem_of_length_pos (greatest_of_best h).size_pos

theorem not_mem_gain_of_best_eq_none (h : s.best = none) : id ∉ s.gain i := by
  intro hid
  obtain ⟨gain, hi, hmem⟩ := mem_setAt.mp hid
  have hbest := s.isBest_best
  rw [h] at hbest
  have hpos : 0 < gain.size := List.length_pos_of_mem hmem
  have hzero : gain.size = 0 := hbest gain (List.mem_of_getElem? hi)
  omega

theorem run_of_picks_eq_ok (h : s.picks = .ok chosen) :
    ∃ t, Run s chosen t ∧ t.uncovered.isEmpty := by
  fun_induction picks s generalizing chosen with
  | case1 s hempty =>
      cases h
      exact ⟨s, .nil, hempty⟩
  | case2 => cases h
  | case3 s _ i caught hbest ih =>
      cases hrest : (s.remove caught).picks with
      | error e =>
          rw [hrest] at h
          cases h
      | ok rest =>
          rw [hrest] at h
          cases h
          obtain ⟨t, hrun, hempty⟩ := ih hrest
          exact ⟨t, .cons hbest hrun, hempty⟩

theorem run_of_picks_eq_error {e : Uncoverable} (h : s.picks = .error e) :
    ∃ chosen t, Run s chosen t ∧ t.best = none ∧ ¬ t.uncovered.isEmpty ∧ e.ids = t.uncovered := by
  fun_induction picks s with
  | case1 => cases h
  | case2 s hempty hbest =>
      cases h
      exact ⟨[], s, .nil, hbest, hempty, rfl⟩
  | case3 s _ i caught hbest ih =>
      cases hrest : (s.remove caught).picks with
      | ok rest =>
          rw [hrest] at h
          cases h
      | error e =>
          rw [hrest] at h
          cases h
          obtain ⟨chosen, t, hrun, hend⟩ := ih hrest
          exact ⟨i :: chosen, t, .cons hbest hrun, hend⟩

namespace Run

-- A run removes what its cases gained at the start, and nothing else.
theorem mem_gain_iff (h : Run s chosen t) (i : Nat) :
    id ∈ t.gain i ↔ id ∈ s.gain i ∧ ∀ j ∈ chosen, id ∉ s.gain j := by
  induction h with
  | nil => simp
  | cons hbest _ ih =>
      simp only [ih, mem_gain_remove, ← gain_eq_of_best hbest, List.forall_mem_cons]
      grind

theorem mem_uncovered_iff (h : Run s chosen t) :
    id ∈ t.uncovered ↔ id ∈ s.uncovered ∧ ∀ j ∈ chosen, id ∉ s.gain j := by
  induction h with
  | nil => simp
  | cons hbest _ ih =>
      simp only [ih, mem_uncovered_remove, mem_gain_remove, ← gain_eq_of_best hbest,
        List.forall_mem_cons]
      grind

theorem append {u : Remaining} {more : List Nat} (h : Run s chosen t) (hmore : Run t more u) :
    Run s (chosen ++ more) u := by
  induction h with
  | nil => exact hmore
  | cons hbest _ ih => exact .cons hbest (ih hmore)

-- The cases in front of a chosen one are a run as well, and it is the best of what they leave.
theorem exists_best_of_append {before after : List Nat} (h : Run s (before ++ i :: after) t) :
    ∃ mid caught, Run s before mid ∧ mid.best = some (i, caught) := by
  induction before generalizing s with
  | nil =>
      cases h with
      | cons hbest _ => exact ⟨s, _, .nil, hbest⟩
  | cons first before ih =>
      cases h with
      | cons hbest h =>
          obtain ⟨mid, caught, hmid, hi⟩ := ih h
          exact ⟨mid, caught, .cons hbest hmid, hi⟩

theorem exists_mem_gain (h : Run s chosen t) (hi : i ∈ chosen) : ∃ id, id ∈ s.gain i := by
  obtain ⟨before, after, rfl⟩ := List.append_of_mem hi
  obtain ⟨mid, caught, hmid, hbest⟩ := h.exists_best_of_append
  obtain ⟨id, hid⟩ := exists_mem_gain_of_best hbest
  exact ⟨id, ((hmid.mem_gain_iff i).mp hid).1⟩

-- A chosen case has nothing left to gain.
theorem nodup (h : Run s chosen t) : chosen.Nodup := by
  induction h with
  | nil => exact List.nodup_nil
  | cons hbest hrun ih =>
      refine List.nodup_cons.mpr ⟨fun hi => ?_, ih⟩
      obtain ⟨id, hid⟩ := hrun.exists_mem_gain hi
      rw [mem_gain_remove, gain_eq_of_best hbest] at hid
      exact hid.2 hid.1

theorem length_add_size_le (h : Run s chosen t) :
    chosen.length + t.uncovered.size ≤ s.uncovered.size := by
  induction h with
  | nil => simp
  | cons hbest _ ih =>
      have hlt := size_remove_lt _ hbest
      rw [List.length_cons]
      omega

end Run

end Remaining

end CallSuite
