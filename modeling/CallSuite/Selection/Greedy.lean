import CallSuite.Selection.Results

namespace CallSuite

-- Wrong implementations that no case catches.
structure Uncoverable where
  ids : IdSet

def Uncoverable.message (e : Uncoverable) : String :=
  let ids := ", ".intercalate (e.ids.toList.map toString)
  "No test case catches implementations \x7b" ++ ids ++ "\x7d"

-- The implementations still to be caught, and which of them each case catches.
structure Remaining where
  uncovered : IdSet
  gains : List IdSet
  subset : ∀ gain ∈ gains, ∀ id ∈ gain, id ∈ uncovered

namespace Remaining

def ofResults (r : Results) : Remaining where
  uncovered := r.wrongSet
  gains := r.catchSets.map (·.filter (· ∈ r.wrongSet))
  subset := by
    intro gain hgain id hid
    obtain ⟨caught, _, rfl⟩ := List.mem_map.mp hgain
    exact of_decide_eq_true (List.mem_filter.mp hid).2

-- Removes what a chosen case catches, from its own gain as well.
def remove (s : Remaining) (caught : IdSet) : Remaining where
  uncovered := s.uncovered.filter (· ∉ caught)
  gains := s.gains.map (·.filter (· ∉ caught))
  subset := by
    intro gain hgain id hid
    obtain ⟨before, hbefore, rfl⟩ := List.mem_map.mp hgain
    obtain ⟨hid, hnew⟩ := List.mem_filter.mp hid
    exact List.mem_filter.mpr ⟨s.subset before hbefore id hid, hnew⟩

end Remaining

-- An empty gain beats nothing, and an equal one does not beat the earlier.
def beats (gain : IdSet) : Option (Nat × IdSet) → Bool
  | some (_, found) => found.size < gain.size
  | none => 0 < gain.size

-- The greatest of `gains` with its place, the first one if there are several. `best` is what was
-- found in front of place `i`.
def bestFrom (best : Option (Nat × IdSet)) (i : Nat) : List IdSet → Option (Nat × IdSet)
  | [] => best
  | gain :: gains => bestFrom (if beats gain best then some (i, gain) else best) (i + 1) gains

def Remaining.best (s : Remaining) : Option (Nat × IdSet) := bestFrom none 0 s.gains

theorem size_pos_of_beats (h : beats gain best) : 0 < gain.size := by
  unfold beats at h
  split at h <;> simp only [decide_eq_true_eq] at h <;> omega

theorem bestFrom_gain (h : bestFrom best i gains = some (j, gain))
    (hbest : ∀ k found, best = some (k, found) → 0 < found.size) :
    (0 < gain.size) ∧ (best = some (j, gain) ∨ gain ∈ gains) := by
  induction gains generalizing best i with
  | nil => exact ⟨hbest j gain h, .inl h⟩
  | cons first gains ih =>
      simp only [bestFrom] at h
      split at h
      · rename_i hbeats
        obtain ⟨hpos, hmem⟩ := ih h fun _ _ heq => by
          cases heq
          exact size_pos_of_beats hbeats
        refine ⟨hpos, .inr ?_⟩
        rcases hmem with heq | hmem
        · cases heq
          simp
        · simp [hmem]
      · obtain ⟨hpos, hmem⟩ := ih h hbest
        exact ⟨hpos, hmem.imp_right fun hmem => by simp [hmem]⟩

theorem Remaining.size_remove_lt (s : Remaining) (h : s.best = some (i, caught)) :
    (s.remove caught).uncovered.size < s.uncovered.size := by
  obtain ⟨hpos, hmem⟩ := bestFrom_gain h (by simp)
  have hmem := hmem.resolve_left (by simp)
  obtain ⟨id, hid⟩ := List.exists_mem_of_length_pos hpos
  refine List.length_filter_lt_length_iff_exists.mpr ⟨id, s.subset caught hmem id hid, ?_⟩
  simpa using hid

-- Takes the case with the greatest gain until nothing is left to be caught.
def Remaining.picks (s : Remaining) : Except Uncoverable (List Nat) :=
  if s.uncovered.isEmpty then .ok []
  else match _h : s.best with
    | none => .error ⟨s.uncovered⟩
    | some (i, caught) => (i :: ·) <$> (s.remove caught).picks
termination_by s.uncovered.size
decreasing_by exact s.size_remove_lt _h

namespace Results

-- The places of the chosen cases, in the order of choice.
def conciseIndices (r : Results) : Except Uncoverable (List Nat) := (Remaining.ofResults r).picks

def conciseSet (r : Results) : Except Uncoverable (List TestCase) :=
  r.conciseIndices.map fun indices => indices.filterMap (r.cases[·]?)

end Results

end CallSuite
