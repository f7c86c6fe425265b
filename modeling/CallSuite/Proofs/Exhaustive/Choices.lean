import CallSuite.Proofs.Exhaustive.Odometer
import Mathlib.Data.List.Sort

namespace CallSuite

variable {α β : Type}

-- `k` places from `lo` on and in front of `n`, in ascending order.
structure IsChoice (lo n k : Nat) (idx : List Nat) : Prop where
  length_eq : idx.length = k
  ascending : idx.Pairwise (· < ·)
  bounds : ∀ i ∈ idx, lo ≤ i ∧ i < n

section Choice

variable {lo n k d : Nat} {idx : List Nat}

theorem isChoice_nil (lo n : Nat) : IsChoice lo n 0 [] := ⟨rfl, .nil, by simp⟩

theorem isChoice_zero_iff : IsChoice lo n 0 idx ↔ idx = [] := by
  constructor
  · exact fun h => List.eq_nil_of_length_eq_zero h.length_eq
  · rintro rfl
    exact isChoice_nil lo n

theorem isChoice_cons_iff :
    IsChoice lo n (k + 1) (d :: idx) ↔ (lo ≤ d ∧ d < n) ∧ IsChoice (d + 1) n k idx := by
  constructor
  · rintro ⟨hlength, hascending, hbounds⟩
    obtain ⟨hd, hidx⟩ := List.forall_mem_cons.mp hbounds
    obtain ⟨hfirst, hrest⟩ := List.pairwise_cons.mp hascending
    exact ⟨hd, Nat.succ.inj hlength, hrest, fun i hi => ⟨hfirst i hi, (hidx i hi).2⟩⟩
  · rintro ⟨hd, hlength, hascending, hbounds⟩
    refine ⟨by rw [List.length_cons, hlength], ?_, ?_⟩
    · exact List.pairwise_cons.mpr ⟨fun i hi => (hbounds i hi).1, hascending⟩
    · refine List.forall_mem_cons.mpr ⟨hd, fun i hi => ?_⟩
      have := hbounds i hi
      omega

theorem IsChoice.exists_cons (h : IsChoice lo n (k + 1) idx) :
    ∃ d rest, idx = d :: rest ∧ (lo ≤ d ∧ d < n) ∧ IsChoice (d + 1) n k rest := by
  obtain ⟨d, rest, rfl⟩ := List.exists_cons_of_length_eq_add_one h.length_eq
  exact ⟨d, rest, rfl, isChoice_cons_iff.mp h⟩

-- Behind a place there have to be as many as are still to be chosen.
theorem IsChoice.add_le (h : IsChoice lo n k idx) (hlo : lo ≤ n) : lo + k ≤ n := by
  induction k generalizing lo idx with
  | zero => exact hlo
  | succ k ih =>
      obtain ⟨d, rest, _, hd, hrest⟩ := h.exists_cons
      have hle := ih hrest hd.2
      omega

theorem isChoice_range' (h : lo + k ≤ n) : IsChoice lo n k (List.range' lo k) := by
  induction k generalizing lo with
  | zero => exact isChoice_nil lo n
  | succ k ih =>
      rw [List.range'_succ, isChoice_cons_iff]
      exact ⟨by omega, ih (by omega)⟩

-- No choice comes before the one without a gap.
theorem IsChoice.not_lt_range' (h : IsChoice lo n k idx) : ¬idx < List.range' lo k := by
  induction k generalizing lo idx with
  | zero => exact List.not_lt_nil _
  | succ k ih =>
      obtain ⟨d, rest, rfl, hd, hrest⟩ := h.exists_cons
      rw [List.range'_succ, List.cons_lt_cons_iff]
      rintro (hlt | ⟨rfl, hlt⟩)
      · omega
      · exact ih hrest hlt

end Choice

section Next

-- What comes behind a vector among those with a property: another one with none between them, or
-- none at all.
def IsNext (P : List Nat → Prop) (idx : List Nat) : Advance → Prop
  | .moved next => P next ∧ idx < next ∧ ∀ u, P u → idx < u → ¬u < next
  | .ended => ∀ u, P u → ¬idx < u

-- Going from each to the next one leaves out none.
theorem visits_of_isNext {P : List Nat → Prop} {advance : List Nat → Option Advance}
    (hnext : ∀ v, P v → ∃ a, advance v = some a ∧ IsNext P v a) {idx : List Nat}
    {rest : List (List Nat)} (hascending : (idx :: rest).Pairwise (· < ·))
    (hmem : ∀ v ∈ idx :: rest, P v) (hall : ∀ v, P v → idx < v → v ∈ rest) :
    Visits advance idx (idx :: rest) := by
  induction rest generalizing idx with
  | nil =>
      obtain ⟨a, ha, hafter⟩ := hnext idx (hmem idx (by simp))
      cases a with
      | moved next => exact absurd (hall next hafter.1 hafter.2.1) (by simp)
      | ended => exact .ended ha
  | cons v rest ih =>
      obtain ⟨hidx, hrest⟩ := List.pairwise_cons.mp hascending
      have hlt : idx < v := hidx v (by simp)
      have hv : P v := hmem v (by simp)
      obtain ⟨a, ha, hafter⟩ := hnext idx (hmem idx (by simp))
      cases a with
      | ended => exact absurd hlt (hafter v hv)
      | moved next =>
          obtain ⟨hP, hgt, hnone⟩ := hafter
          obtain rfl : next = v := by
            rcases List.mem_cons.mp (hall next hP hgt) with heq | hin
            · exact heq
            · exact absurd ((List.pairwise_cons.mp hrest).1 next hin) (hnone v hv hlt)
          refine .moved ha (ih hrest (fun w hw => hmem w (.tail _ hw)) fun w hw hbehind => ?_)
          rcases List.mem_cons.mp (hall w hw (hlt.trans hbehind)) with rfl | hin
          · exact absurd hbehind (lt_irrefl _)
          · exact hin

end Next

section Advance

-- The last place in front of `pos` that has room, in a choice of `k` places in front of `n`.
def lastRoom? (n k : Nat) : Nat → List Nat → Option (Option Nat)
  | 0, _ => some none
  | pos + 1, idx => do
    let i ← idx[pos]?
    if i ≠ pos + n - k then return some pos else lastRoom? n k pos idx

-- The `count` places behind `pos` are made to follow it one by one.
def closeUp? (pos : Nat) : Nat → List Nat → Option (List Nat)
  | 0, idx => some idx
  | count + 1, idx => do
    let i ← idx[pos]?
    let _ ← idx[pos + 1]?
    closeUp? (pos + 1) count (idx.set (pos + 1) (i + 1))

def advanceChoice? (n k : Nat) (idx : List Nat) : Option Advance := do
  match ← lastRoom? n k k idx with
  | none => return .ended
  | some pos =>
    let i ← idx[pos]?
    let next ← closeUp? pos (k - (pos + 1)) (idx.set pos (i + 1))
    return .moved next

variable {n k d pos count : Nat} {idx : List Nat}

theorem lastRoom?_succ (hpos : pos < idx.length) : lastRoom? n k (pos + 1) idx =
    if idx[pos] ≠ pos + n - k then some (some pos) else lastRoom? n k pos idx := by
  rw [lastRoom?, List.getElem?_eq_getElem hpos]
  rfl

-- A place in front is the last one to be asked.
theorem lastRoom?_cons (hpos : pos ≤ idx.length) : lastRoom? n (k + 1) (pos + 1) (d :: idx) =
    (lastRoom? n k pos idx).map fun
      | some q => some (q + 1)
      | none => if d ≠ n - (k + 1) then some 0 else none := by
  induction pos with
  | zero =>
      rw [lastRoom?_succ (by simp), List.getElem_cons_zero, Nat.zero_add]
      by_cases hroom : d ≠ n - (k + 1)
      · simp [hroom, lastRoom?]
      · simp [hroom, lastRoom?]
  | succ pos ih =>
      have hbound : pos + 1 + n - (k + 1) = pos + n - k := by omega
      rw [lastRoom?_succ (by simpa using hpos), lastRoom?_succ hpos, List.getElem_cons_succ, hbound]
      by_cases hroom : idx[pos] ≠ pos + n - k
      · simp [hroom]
      · rw [if_neg hroom, if_neg hroom, ih (Nat.le_of_succ_le hpos)]

theorem closeUp?_cons :
    closeUp? (pos + 1) count (d :: idx) = (closeUp? pos count idx).map (d :: ·) := by
  induction count generalizing pos idx with
  | zero => rfl
  | succ count ih => simp [closeUp?, ih]

theorem closeUp?_zero (d : Nat) (idx : List Nat) :
    closeUp? 0 idx.length (d :: idx) = some (List.range' d (idx.length + 1)) := by
  induction idx generalizing d with
  | nil => rfl
  | cons e idx ih =>
      have hrest : closeUp? 0 idx.length ((d + 1) :: idx) =
          some (List.range' (d + 1) (idx.length + 1)) := ih (d + 1)
      simp only [List.length_cons, closeUp?, List.getElem?_cons_zero, List.getElem?_cons_succ,
        Option.bind_eq_bind, Option.bind_some, List.set_cons_succ, List.set_cons_zero,
        closeUp?_cons, hrest, Option.map_some, List.range'_succ]

theorem advanceChoice?_cons (hidx : idx.length = k) :
    advanceChoice? n (k + 1) (d :: idx) = (advanceChoice? n k idx).map fun
      | .moved next => .moved (d :: next)
      | .ended => if d ≠ n - (k + 1) then .moved (List.range' (d + 1) (k + 1)) else .ended := by
  unfold advanceChoice?
  rw [lastRoom?_cons hidx.ge]
  cases lastRoom? n k k idx with
  | none => rfl
  | some last =>
      cases last with
      | none =>
          by_cases hroom : d ≠ n - (k + 1)
          · have hclose := closeUp?_zero (d + 1) idx
            rw [hidx] at hclose
            simp [hroom, hclose]
          · simp [hroom]
      | some pos =>
          have hcount : k + 1 - (pos + 1 + 1) = k - (pos + 1) := by omega
          simp only [Option.map_some, Option.bind_eq_bind, Option.bind_some,
            List.getElem?_cons_succ, List.set_cons_succ, hcount, closeUp?_cons]
          cases idx[pos]? with
          | none => rfl
          | some i =>
              cases h : closeUp? pos (k - (pos + 1)) (idx.set pos (i + 1)) with
              | none => simp [h]
              | some next => simp [h]

end Advance

section Successor

variable {lo n k d : Nat} {idx next : List Nat}

-- As long as the places behind the first one can be moved on, it stays.
theorem IsNext.cons_moved (hd : lo ≤ d ∧ d < n)
    (h : IsNext (IsChoice (d + 1) n k) idx (.moved next)) :
    IsNext (IsChoice lo n (k + 1)) (d :: idx) (.moved (d :: next)) := by
  obtain ⟨hnext, hgt, hnone⟩ := h
  refine ⟨isChoice_cons_iff.mpr ⟨hd, hnext⟩, List.cons_lt_cons_iff.mpr (.inr ⟨rfl, hgt⟩), ?_⟩
  intro u hu hbehind hbefore
  obtain ⟨e, rest, rfl, he, hrest⟩ := hu.exists_cons
  rcases List.cons_lt_cons_iff.mp hbehind with hlt | ⟨rfl, hlt⟩
  · rcases List.cons_lt_cons_iff.mp hbefore with hlt' | ⟨rfl, _⟩
    · omega
    · omega
  · rcases List.cons_lt_cons_iff.mp hbefore with hlt' | ⟨_, hlt'⟩
    · omega
    · exact hnone rest hrest hlt hlt'

-- After that it moves up as long as there is room for the places behind it.
theorem IsNext.cons_ended (hd : lo ≤ d ∧ d < n) (hidx : IsChoice (d + 1) n k idx)
    (h : IsNext (IsChoice (d + 1) n k) idx .ended) :
    IsNext (IsChoice lo n (k + 1)) (d :: idx)
      (if d ≠ n - (k + 1) then .moved (List.range' (d + 1) (k + 1)) else .ended) := by
  have hle : d + 1 + k ≤ n := hidx.add_le hd.2
  have hfirst : ∀ e rest, IsChoice lo n (k + 1) (e :: rest) → d :: idx < e :: rest →
      d < e ∧ e + 1 + k ≤ n ∧ IsChoice (e + 1) n k rest := by
    intro e rest hu hbehind
    obtain ⟨he, hrest⟩ := isChoice_cons_iff.mp hu
    rcases List.cons_lt_cons_iff.mp hbehind with hlt | ⟨rfl, hlt⟩
    · exact ⟨hlt, hrest.add_le he.2, hrest⟩
    · exact absurd hlt (h rest hrest)
  split_ifs with hroom
  · refine ⟨?_, ?_, fun u hu hbehind hbefore => ?_⟩
    · rw [List.range'_succ, isChoice_cons_iff]
      exact ⟨by omega, isChoice_range' (by omega)⟩
    · rw [List.range'_succ, List.cons_lt_cons_iff]
      exact .inl d.lt_succ_self
    · obtain ⟨e, rest, rfl, _⟩ := hu.exists_cons
      obtain ⟨hlt, _, hrest⟩ := hfirst e rest hu hbehind
      rw [List.range'_succ, List.cons_lt_cons_iff] at hbefore
      rcases hbefore with hlt' | ⟨rfl, hlt'⟩
      · omega
      · exact hrest.not_lt_range' hlt'
  · intro u hu hbehind
    obtain ⟨e, rest, rfl, _⟩ := hu.exists_cons
    obtain ⟨hlt, hfits, _⟩ := hfirst e rest hu hbehind
    omega

-- One step goes from a choice to the next one in lexicographic order, and no place is asked for
-- that is not there.
theorem IsChoice.exists_isNext (h : IsChoice lo n k idx) :
    ∃ a, advanceChoice? n k idx = some a ∧ IsNext (IsChoice lo n k) idx a := by
  induction idx generalizing lo k with
  | nil =>
      obtain rfl : 0 = k := h.length_eq
      refine ⟨.ended, rfl, fun u hu => ?_⟩
      rw [isChoice_zero_iff.mp hu]
      exact List.not_lt_nil _
  | cons d idx ih =>
      obtain ⟨k, rfl⟩ : ∃ k', k = k' + 1 := ⟨idx.length, h.length_eq.symm⟩
      obtain ⟨hd, hidx⟩ := isChoice_cons_iff.mp h
      obtain ⟨a, ha, hafter⟩ := ih hidx
      rw [advanceChoice?_cons hidx.length_eq, ha]
      cases a with
      | moved next => exact ⟨_, rfl, hafter.cons_moved hd⟩
      | ended => exact ⟨_, rfl, hafter.cons_ended hd hidx⟩

end Successor

section Combinations

variable {xs : List α} {n k : Nat}

theorem combinations_zero (xs : List α) : combinations xs 0 = [[]] := by
  simp [combinations_eq_reverse_sublistsLen]

theorem combinations_nil_succ (k : Nat) : combinations ([] : List α) (k + 1) = [] := by
  simp [combinations_eq_reverse_sublistsLen]

-- The rows with the first entry come before those without it.
theorem combinations_cons_succ (x : α) (xs : List α) (k : Nat) : combinations (x :: xs) (k + 1) =
    (combinations xs k).map (x :: ·) ++ combinations xs (k + 1) := by
  simp only [combinations_eq_reverse_sublistsLen, List.sublistsLen_succ_cons, List.reverse_append,
    List.map_reverse]

theorem combinations_map (f : α → β) (xs : List α) (k : Nat) :
    combinations (xs.map f) k = (combinations xs k).map (·.map f) := by
  induction xs generalizing k with
  | nil => cases k <;> simp [combinations_zero, combinations_nil_succ]
  | cons x xs ih =>
      cases k with
      | zero => simp [combinations_zero]
      | succ k => simp [combinations_cons_succ, ih]

theorem pairwise_combinations {xs : List Nat} (h : xs.Pairwise (· < ·)) (k : Nat) :
    (combinations xs k).Pairwise (· < ·) := by
  induction xs generalizing k with
  | nil => cases k <;> simp [combinations_zero, combinations_nil_succ]
  | cons x xs ih =>
      obtain ⟨hx, hxs⟩ := List.pairwise_cons.mp h
      cases k with
      | zero => simp [combinations_zero]
      | succ k =>
          rw [combinations_cons_succ, List.pairwise_append]
          refine ⟨?_, ih hxs (k + 1), ?_⟩
          · exact (ih hxs k).map _ fun _ _ hlt => List.cons_lt_cons_iff.mpr (.inr ⟨rfl, hlt⟩)
          · intro row hrow later hlater
            obtain ⟨rest, _, rfl⟩ := List.mem_map.mp hrow
            obtain ⟨hsub, hlength⟩ := mem_combinations.mp hlater
            obtain ⟨y, _, rfl⟩ := List.exists_cons_of_length_eq_add_one hlength
            exact List.cons_lt_cons_iff.mpr (.inl (hx y (hsub.subset (by simp))))

theorem mem_combinations_range {idx : List Nat} :
    idx ∈ combinations (List.range n) k ↔ IsChoice 0 n k idx := by
  rw [mem_combinations]
  constructor
  · rintro ⟨hsub, hlength⟩
    refine ⟨hlength, List.pairwise_lt_range.sublist hsub, fun i hi => ⟨Nat.zero_le i, ?_⟩⟩
    exact List.mem_range.mp (hsub.subset hi)
  · intro h
    have hnodup : idx.Nodup := h.ascending.imp Nat.ne_of_lt
    have hsubset : idx ⊆ List.range n := fun i hi => List.mem_range.mpr (h.bounds i hi).2
    refine ⟨List.sublist_of_subperm_of_pairwise (r := (· < ·))
      (hnodup.subperm hsubset) h.ascending List.pairwise_lt_range, h.length_eq⟩

-- The rows of `k` entries of `xs`, by moving on a choice of `k` places.
def CountedCombinations (xs : List α) (k : Nat) (rows : List (List α)) : Prop :=
  if xs.length < k then rows = []
  else RowsFrom xs (advanceChoice? xs.length k) (List.range k) rows

-- Moving on from the choice without a gap goes through all choices.
theorem visits_combinations (h : k ≤ n) :
    Visits (advanceChoice? n k) (List.range k) (combinations (List.range n) k) := by
  have hascending := pairwise_combinations (List.pairwise_lt_range (n := n)) k
  have hrange : List.range k ∈ combinations (List.range n) k := by
    rw [mem_combinations_range, List.range_eq_range']
    exact isChoice_range' (by omega)
  cases hchoices : combinations (List.range n) k with
  | nil => simp [hchoices] at hrange
  | cons first rest =>
      have hmem : ∀ idx, idx ∈ first :: rest ↔ IsChoice 0 n k idx := fun idx => by
        rw [← hchoices, mem_combinations_range]
      rw [hchoices] at hascending hrange
      obtain rfl : List.range k = first := by
        rcases List.mem_cons.mp hrange with heq | hin
        · exact heq
        · have hbefore := (List.pairwise_cons.mp hascending).1 _ hin
          rw [List.range_eq_range'] at hbefore
          exact absurd hbefore ((hmem first).mp (by simp)).not_lt_range'
      refine visits_of_isNext (fun v hv => hv.exists_isNext) hascending
        (fun v hv => (hmem v).mp hv) fun v hv hbehind => ?_
      rcases List.mem_cons.mp ((hmem v).mpr hv) with rfl | hin
      · exact absurd hbehind (lt_irrefl _)
      · exact hin

theorem map_some_combinations (xs : List α) (k : Nat) : (combinations xs k).map (·.map some) =
    (combinations (List.range xs.length) k).map (·.map (xs[·]?)) := by
  have hxs : xs.map some = (List.range xs.length).map (xs[·]?) :=
    List.ext_getElem (by simp) fun i hi _ => by simp
  rw [← combinations_map, ← combinations_map, hxs]

theorem countedCombinations_iff {rows : List (List α)} :
    CountedCombinations xs k rows ↔ rows = combinations xs k := by
  unfold CountedCombinations
  split_ifs with hlt
  · rw [combinations, if_neg (by omega)]
  · exact ((visits_combinations (by omega)).rowsFrom (map_some_combinations xs k).symm).iff

theorem combinations_eq_nil_iff : combinations xs k = [] ↔ xs.length < k := by
  rw [← List.length_eq_zero_iff, length_combinations, Nat.choose_eq_zero_iff]

-- Moving on ends without a read outside, and gives one row for each choice of places, in
-- lexicographic order of these.
theorem combinations_by_places (xs : List α) (k : Nat) :
    (∀ rows, CountedCombinations xs k rows ↔ rows = combinations xs k) ∧
      (∃ choices : List (List Nat), choices.Pairwise (· < ·) ∧
        (∀ idx, idx ∈ choices ↔ IsChoice 0 xs.length k idx) ∧
        (combinations xs k).map (·.map some) = choices.map (·.map (xs[·]?))) ∧
      (combinations xs k).length = xs.length.choose k ∧
      combinations xs 0 = [[]] ∧ (combinations xs k = [] ↔ xs.length < k) := by
  refine ⟨fun _ => countedCombinations_iff, ⟨combinations (List.range xs.length) k, ?_⟩,
    length_combinations xs k, combinations_zero xs, combinations_eq_nil_iff⟩
  exact ⟨pairwise_combinations List.pairwise_lt_range k, fun _ => mem_combinations_range,
    map_some_combinations xs k⟩

end Combinations

end CallSuite
