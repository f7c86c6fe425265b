import CallSuite.Exhaustive.Rows
import Mathlib.Data.List.Sublists
import Mathlib.Algebra.BigOperators.Group.List.Basic

namespace CallSuite

variable {α : Type}

theorem mem_prependEach {xs : List α} {rows : List (List α)} {row : List α} :
    row ∈ prependEach xs rows ↔ ∃ x ∈ xs, ∃ rest ∈ rows, x :: rest = row := by
  simp only [prependEach, List.mem_flatMap, List.mem_map]

theorem nodup_prependEach {xs : List α} {rows : List (List α)} (hxs : xs.Nodup)
    (hrows : rows.Nodup) : (prependEach xs rows).Nodup := by
  rw [prependEach, List.nodup_flatMap]
  refine ⟨fun x _ => hrows.map List.cons_injective, hxs.imp fun {x y} hne => ?_⟩
  intro row hx hy
  obtain ⟨_, _, rfl⟩ := List.mem_map.mp hx
  obtain ⟨_, _, heq⟩ := List.mem_map.mp hy
  exact hne (List.cons.inj heq).1.symm

-- Of two places that the rows are counted through, the entry in front changes last.
theorem getElem?_prependEach (xs : List α) (rows : List (List α)) (k : Nat) :
    (prependEach xs rows)[k]? =
      xs[k / rows.length]?.bind fun x => rows[k % rows.length]?.map (x :: ·) := by
  rcases Nat.eq_zero_or_pos rows.length with hzero | hpos
  · rw [List.length_eq_zero_iff] at hzero
    subst hzero
    cases xs[k / 0]? <;> simp [prependEach]
  · induction xs generalizing k with
    | nil => simp [prependEach]
    | cons x xs ih =>
        have hcons : prependEach (x :: xs) rows = rows.map (x :: ·) ++ prependEach xs rows :=
          List.flatMap_cons
        rw [hcons]
        by_cases hk : k < rows.length
        · rw [List.getElem?_append_left (by rwa [List.length_map]), List.getElem?_map,
            Nat.div_eq_of_lt hk, Nat.mod_eq_of_lt hk]
          rfl
        · obtain ⟨k, rfl⟩ := Nat.exists_eq_add_of_le' (Nat.not_lt.mp hk)
          rw [List.getElem?_append_right (by rw [List.length_map]; omega), List.length_map,
            Nat.add_sub_cancel, ih, Nat.add_mod_right, Nat.add_div_right _ hpos,
            List.getElem?_cons_succ]

theorem mem_power {xs : List α} {n : Nat} {row : List α} :
    row ∈ power xs n ↔ row.length = n ∧ ∀ x ∈ row, x ∈ xs := by
  induction n generalizing row with
  | zero =>
      rw [power_zero, List.mem_singleton, List.length_eq_zero_iff]
      constructor
      · rintro rfl
        simp
      · exact And.left
  | succ n ih =>
      rw [power_succ, mem_prependEach]
      constructor
      · rintro ⟨x, hx, rest, hrest, rfl⟩
        obtain ⟨hlen, hmem⟩ := ih.mp hrest
        exact ⟨by rw [List.length_cons, hlen], List.forall_mem_cons.mpr ⟨hx, hmem⟩⟩
      · rintro ⟨hlen, hmem⟩
        obtain ⟨x, rest, rfl⟩ := List.exists_cons_of_length_eq_add_one hlen
        obtain ⟨hx, hrest⟩ := List.forall_mem_cons.mp hmem
        exact ⟨x, hx, rest, ih.mpr ⟨Nat.succ.inj hlen, hrest⟩, rfl⟩

theorem length_power (xs : List α) (n : Nat) : (power xs n).length = xs.length ^ n := by
  induction n with
  | zero => rw [power_zero]; rfl
  | succ n ih =>
      rw [power_succ, prependEach, List.length_flatMap]
      simp only [List.length_map, ih, List.map_const', List.sum_replicate_nat]
      exact Nat.pow_succ'.symm

theorem nodup_power {xs : List α} (h : xs.Nodup) (n : Nat) : (power xs n).Nodup := by
  induction n with
  | zero => rw [power_zero]; exact List.nodup_singleton _
  | succ n ih =>
      rw [power_succ]
      exact nodup_prependEach h ih

-- The rows come out in the reverse of the order in which they were chosen. Once no entry may be
-- left out there is only one row to choose.
theorem pickInto_eq (taken : List α) (k spare : Nat) (xs : List α) (rows : List (List α))
    (h : xs.length = k + spare) :
    pickInto taken k spare xs rows = (xs.sublistsLen k).map (taken.reverse ++ ·) ++ rows := by
  induction xs generalizing taken k spare rows with
  | nil =>
      have hk : k = 0 := by simp only [List.length_nil] at h; omega
      subst hk
      simp [pickInto]
  | cons x xs ih =>
      rw [List.length_cons] at h
      cases k with
      | zero => simp [pickInto]
      | succ k =>
          have hpicked := ih (x :: taken) k spare rows (by omega)
          simp only [pickInto, hpicked, List.sublistsLen_succ_cons]
          cases spare with
          | zero =>
              rw [List.sublistsLen_of_length_lt (n := k + 1) (by omega)]
              simp
          | succ spare =>
              dsimp only
              rw [ih taken (k + 1) spare _ (by omega)]
              simp

theorem combinations_eq_reverse_sublistsLen (xs : List α) (k : Nat) :
    combinations xs k = (xs.sublistsLen k).reverse := by
  unfold combinations
  split_ifs with h
  · rw [pickInto_eq [] k (xs.length - k) xs [] (by omega)]
    simp
  · rw [List.sublistsLen_of_length_lt (by omega), List.reverse_nil]

theorem mem_combinations {xs : List α} {k : Nat} {row : List α} :
    row ∈ combinations xs k ↔ row.Sublist xs ∧ row.length = k := by
  rw [combinations_eq_reverse_sublistsLen, List.mem_reverse, List.mem_sublistsLen]

theorem length_combinations (xs : List α) (k : Nat) :
    (combinations xs k).length = xs.length.choose k := by
  rw [combinations_eq_reverse_sublistsLen, List.length_reverse, List.length_sublistsLen]

theorem nodup_combinations {xs : List α} (h : xs.Nodup) (k : Nat) : (combinations xs k).Nodup := by
  rw [combinations_eq_reverse_sublistsLen, List.nodup_reverse]
  exact List.nodup_sublistsLen k h

theorem product_append_singleton (sets : List (List α)) (set : List α) :
    product (sets ++ [set]) = (product sets).flatMap fun row => set.map fun x => row ++ [x] := by
  simp only [product, List.foldl_append, List.foldl_cons, List.foldl_nil]

theorem length_product (sets : List (List α)) :
    (product sets).length = (sets.map List.length).prod := by
  induction sets using List.reverseRecOn with
  | nil => rfl
  | append_singleton sets set ih =>
      rw [product_append_singleton, List.length_flatMap]
      simp only [List.length_map, List.map_const', List.sum_replicate_nat, ih, List.map_append,
        List.prod_append, List.map_cons, List.map_nil, List.prod_singleton]

theorem prependEach_flatMap (xs : List α) (rows : List (List α)) (f : List α → List (List α))
    (hf : ∀ x row, f (x :: row) = (f row).map (x :: ·)) :
    (prependEach xs rows).flatMap f = prependEach xs (rows.flatMap f) := by
  simp only [prependEach, List.flatMap_assoc, List.flatMap_map, hf, List.map_flatMap]

-- The product grows at its last set, and has the rows of the other sets behind each entry of the
-- first one.
theorem product_cons (set : List α) (sets : List (List α)) :
    product (set :: sets) = prependEach set (product sets) := by
  induction sets using List.reverseRecOn with
  | nil => simp [product, prependEach, List.map_eq_flatMap]
  | append_singleton sets last ih =>
      rw [← List.cons_append, product_append_singleton, ih, product_append_singleton]
      exact prependEach_flatMap _ _ _ fun x row => by simp

theorem mem_product {sets : List (List α)} {row : List α} :
    row ∈ product sets ↔ List.Forall₂ (· ∈ ·) row sets := by
  induction sets generalizing row with
  | nil => simp [product]
  | cons set sets ih =>
      rw [product_cons, mem_prependEach, List.forall₂_cons_right_iff]
      simp only [ih]
      constructor
      · rintro ⟨x, hx, rest, hrest, rfl⟩
        exact ⟨x, rest, hx, hrest, rfl⟩
      · rintro ⟨x, rest, hx, hrest, rfl⟩
        exact ⟨x, hx, rest, hrest, rfl⟩

theorem nodup_product {sets : List (List α)} (h : ∀ set ∈ sets, set.Nodup) :
    (product sets).Nodup := by
  induction sets with
  | nil => exact List.nodup_singleton _
  | cons set sets ih =>
      obtain ⟨hset, hsets⟩ := List.forall_mem_cons.mp h
      rw [product_cons]
      exact nodup_prependEach hset (ih hsets)

-- The digits of `k` to the bases `sizes`, of which the last one is the lowest. These are the places
-- of the entries that the `k`-th row takes from sets of these sizes.
def places : List Nat → Nat → List Nat
  | [], _ => []
  | n :: sizes, k => k / sizes.prod % n :: places sizes k

theorem places_mod (sizes : List Nat) (k : Nat) :
    places sizes (k % sizes.prod) = places sizes k := by
  induction sizes generalizing k with
  | nil => rfl
  | cons n sizes ih =>
      simp only [places, List.prod_cons, List.cons.injEq]
      constructor
      · rw [Nat.mul_comm, Nat.mod_mul_right_div_self, Nat.mod_mod]
      · rw [← ih (k % (n * sizes.prod)), Nat.mod_mul_left_mod, ih]

-- Counting up goes through the places in lexicographic order.
theorem places_lt {sizes : List Nat} {j k : Nat} (hjk : j < k) (hk : k < sizes.prod) :
    places sizes j < places sizes k := by
  induction sizes generalizing j k with
  | nil =>
      rw [List.prod_nil] at hk
      omega
  | cons n sizes ih =>
      rw [List.prod_cons] at hk
      have hpos : 0 < sizes.prod := Nat.pos_of_mul_pos_left (Nat.zero_lt_of_lt hk)
      have hquot : k / sizes.prod < n := (Nat.div_lt_iff_lt_mul hpos).mpr hk
      have hle : j / sizes.prod ≤ k / sizes.prod := Nat.div_le_div_right (Nat.le_of_lt hjk)
      rw [places, places, List.cons_lt_cons_iff, Nat.mod_eq_of_lt hquot,
        Nat.mod_eq_of_lt (Nat.lt_of_le_of_lt hle hquot)]
      rcases Nat.lt_or_eq_of_le hle with hlt | heq
      · exact .inl hlt
      · refine .inr ⟨heq, ?_⟩
        have hj := Nat.div_add_mod j sizes.prod
        have hk := Nat.div_add_mod k sizes.prod
        rw [heq] at hj
        rw [← places_mod sizes j, ← places_mod sizes k]
        exact ih (by omega) (Nat.mod_lt k hpos)

theorem map_some_of_getElem?_product {sets : List (List α)} {k : Nat} {row : List α}
    (h : (product sets)[k]? = some row) :
    row.map some = List.zipWith (fun set place => set[place]?) sets
      (places (sets.map List.length) k) := by
  induction sets generalizing k row with
  | nil =>
      obtain rfl : row = [] := List.mem_singleton.mp (List.mem_of_getElem? h)
      rfl
  | cons set sets ih =>
      rw [product_cons, getElem?_prependEach, length_product] at h
      obtain ⟨x, hx, h⟩ := Option.bind_eq_some_iff.mp h
      obtain ⟨rest, hrest, rfl⟩ := Option.map_eq_some_iff.mp h
      obtain ⟨hlt, _⟩ := List.getElem?_eq_some_iff.mp hx
      have htail := ih hrest
      rw [places_mod] at htail
      rw [List.map_cons, List.map_cons, places, List.zipWith_cons_cons, Nat.mod_eq_of_lt hlt, hx,
        htail]

end CallSuite
