import CallSuite.Proofs.Exhaustive.Rows
import Mathlib.Data.Nat.Digits.Lemmas

namespace CallSuite

variable {α β : Type}

section Loop

-- What becomes of a vector of places: it is moved on to another one, or it was the last.
inductive Advance where
  | moved (next : List Nat)
  | ended

-- The entries at some places. All of them have to be there.
def entriesAt? (xs : List α) (idx : List Nat) : Option (List α) := idx.mapM (xs[·]?)

-- The rows that are made from `idx` on, one for each vector up to the last one. There are none
-- where a place is asked for that is not there, or where no vector is the last.
inductive RowsFrom (xs : List α) (advance : List Nat → Option Advance) :
    List Nat → List (List α) → Prop
  | ended {idx row} (hrow : entriesAt? xs idx = some row) (hadvance : advance idx = some .ended) :
    RowsFrom xs advance idx [row]
  | moved {idx next row rows} (hrow : entriesAt? xs idx = some row)
      (hadvance : advance idx = some (.moved next)) (hrows : RowsFrom xs advance next rows) :
    RowsFrom xs advance idx (row :: rows)

-- The vectors from `idx` on to the last one.
inductive Visits (advance : List Nat → Option Advance) : List Nat → List (List Nat) → Prop
  | ended {idx} (hadvance : advance idx = some .ended) : Visits advance idx [idx]
  | moved {idx next visited} (hadvance : advance idx = some (.moved next))
      (hvisits : Visits advance next visited) : Visits advance idx (idx :: visited)

variable {xs : List α} {advance : List Nat → Option Advance} {idx : List Nat}
  {rows rows' : List (List α)}

theorem RowsFrom.unique (h : RowsFrom xs advance idx rows) (h' : RowsFrom xs advance idx rows') :
    rows' = rows := by
  induction h generalizing rows' with
  | ended hrow hadvance =>
      cases h' with
      | ended hrow' _ =>
          rw [hrow] at hrow'
          cases hrow'
          rfl
      | moved _ hadvance' _ =>
          rw [hadvance] at hadvance'
          cases hadvance'
  | moved hrow hadvance _ ih =>
      cases h' with
      | ended _ hadvance' =>
          rw [hadvance] at hadvance'
          cases hadvance'
      | moved hrow' hadvance' hrows' =>
          rw [hrow] at hrow'
          rw [hadvance] at hadvance'
          cases hrow'
          cases hadvance'
          rw [ih hrows']

theorem RowsFrom.iff (h : RowsFrom xs advance idx rows) :
    RowsFrom xs advance idx rows' ↔ rows' = rows := by
  constructor
  · exact h.unique
  · rintro rfl
    exact h

theorem mapM_eq_some_of_map_eq {f : β → Option α} {bs : List β} {as : List α}
    (h : bs.map f = as.map some) : bs.mapM f = some as := by
  induction bs generalizing as with
  | nil =>
      obtain rfl := List.map_eq_nil_iff.mp h.symm
      rfl
  | cons b bs ih =>
      obtain ⟨a, as, rfl, ha, has⟩ := List.map_eq_cons_iff.mp h.symm
      rw [List.mapM_cons, ← ha, ih has.symm]
      rfl

theorem Visits.rowsFrom {visited : List (List Nat)} (h : Visits advance idx visited)
    (hrows : visited.map (·.map (xs[·]?)) = rows.map (·.map some)) :
    RowsFrom xs advance idx rows := by
  induction h generalizing rows with
  | ended hadvance =>
      obtain ⟨row, rest, rfl, hrow, hrest⟩ := List.map_eq_cons_iff.mp hrows.symm
      obtain rfl := List.map_eq_nil_iff.mp hrest
      exact .ended (mapM_eq_some_of_map_eq hrow.symm) hadvance
  | moved hadvance _ ih =>
      obtain ⟨row, rest, rfl, hrow, hrest⟩ := List.map_eq_cons_iff.mp hrows.symm
      exact .moved (mapM_eq_some_of_map_eq hrow.symm) hadvance (ih hrest.symm)

end Loop

section Digits

-- The `n` digits of `r`, the highest one first.
def digits (base n r : Nat) : List Nat := places (List.replicate n base) r

-- The numeral of `r` in `n` places, the highest one first. Places in front may be 0.
structure IsNumeral (base n r : Nat) (ds : List Nat) : Prop where
  length_eq : ds.length = n
  lt_base : ∀ d ∈ ds, d < base
  value : Nat.ofDigits base ds.reverse = r

variable {base n r : Nat}

theorem digits_zero (base r : Nat) : digits base 0 r = [] := rfl

theorem digits_succ (base n r : Nat) :
    digits base (n + 1) r = r / base ^ n % base :: digits base n r := by
  rw [digits, List.replicate_succ, places, List.prod_replicate]
  rfl

theorem digits_mod (base n r : Nat) : digits base n (r % base ^ n) = digits base n r := by
  have hmod := places_mod (List.replicate n base) r
  rwa [List.prod_replicate] at hmod

-- A number by its highest digit and the rest of it.
theorem exists_highest_digit {base n r : Nat} (hr : r < base ^ (n + 1)) :
    ∃ q < base, ∃ s < base ^ n, r = s + base ^ n * q := by
  rw [pow_succ] at hr
  have hpow : 0 < base ^ n := Nat.pos_of_mul_pos_right (Nat.zero_lt_of_lt hr)
  exact ⟨r / base ^ n, Nat.div_lt_of_lt_mul hr, r % base ^ n, Nat.mod_lt r hpow,
    (Nat.mod_add_div r _).symm⟩

theorem add_mul_lt_pow_iff {base n q s : Nat} (hs : s < base ^ n) :
    s + base ^ n * q < base ^ (n + 1) ↔ q < base := by
  rw [pow_succ]
  constructor
  · intro h
    exact Nat.lt_of_mul_lt_mul_left (Nat.lt_of_le_of_lt (Nat.le_add_left _ s) h)
  · intro hq
    calc s + base ^ n * q
      _ < base ^ n + base ^ n * q := Nat.add_lt_add_right hs _
      _ = base ^ n * (q + 1) := by rw [Nat.mul_succ, Nat.add_comm]
      _ ≤ base ^ n * base := Nat.mul_le_mul_left _ hq

theorem digits_add_mul {base n q s : Nat} (hq : q < base) (hs : s < base ^ n) :
    digits base (n + 1) (s + base ^ n * q) = q :: digits base n s := by
  have hpow : 0 < base ^ n := Nat.zero_lt_of_lt hs
  rw [digits_succ, ← digits_mod base n (s + base ^ n * q), Nat.add_mul_mod_self_left,
    Nat.add_mul_div_left _ _ hpow, Nat.div_eq_of_lt hs, Nat.zero_add, Nat.mod_eq_of_lt hq,
    digits_mod]

theorem length_digits (base n r : Nat) : (digits base n r).length = n := by
  induction n with
  | zero => rfl
  | succ n ih => rw [digits_succ, List.length_cons, ih]

theorem digits_of_zero (base n : Nat) : digits base n 0 = List.replicate n 0 := by
  induction n with
  | zero => rfl
  | succ n ih => rw [digits_succ, ih, Nat.zero_div, Nat.zero_mod, List.replicate_succ]

theorem isNumeral_digits (hr : r < base ^ n) : IsNumeral base n r (digits base n r) := by
  induction n generalizing r with
  | zero =>
      obtain rfl : r = 0 := by simpa using hr
      exact ⟨rfl, by simp [digits_zero], rfl⟩
  | succ n ih =>
      obtain ⟨q, hq, s, hs, rfl⟩ := exists_highest_digit hr
      have hrest := ih hs
      rw [digits_add_mul hq hs]
      refine ⟨?_, List.forall_mem_cons.mpr ⟨hq, hrest.lt_base⟩, ?_⟩
      · rw [List.length_cons, hrest.length_eq]
      · rw [List.reverse_cons, Nat.ofDigits_append, hrest.value, List.length_reverse,
          hrest.length_eq, Nat.ofDigits_singleton]

end Digits

section Carry

-- Counts up the place in front of `pos`. One that has no room starts over, and the place in front
-- of it is counted up.
def carryFrom? (size : Nat) : Nat → List Nat → Option Advance
  | 0, _ => some .ended
  | pos + 1, idx => do
    let i ← idx[pos]?
    if i + 1 < size then return .moved (idx.set pos (i + 1))
    else carryFrom? size pos (idx.set pos 0)

variable {size pos d : Nat} {idx next : List Nat}

theorem carryFrom?_succ (hidx : pos < idx.length) : carryFrom? size (pos + 1) idx =
    if idx[pos] + 1 < size then some (.moved (idx.set pos (idx[pos] + 1)))
    else carryFrom? size pos (idx.set pos 0) := by
  rw [carryFrom?, List.getElem?_eq_getElem hidx]
  rfl

-- What a place in front gets to see of a carry: nothing, or all the places behind it starting over.
theorem carryFrom?_cons (d : Nat) (hpos : pos ≤ idx.length) :
    carryFrom? size (pos + 1) (d :: idx) = (carryFrom? size pos idx).map fun
      | .moved next => .moved (d :: next)
      | .ended =>
        if d + 1 < size then .moved ((d + 1) :: (List.replicate pos 0 ++ idx.drop pos))
        else .ended := by
  induction pos generalizing idx with
  | zero =>
      rw [carryFrom?_succ (by simp), List.getElem_cons_zero]
      by_cases hroom : d + 1 < size
      · simp [hroom, carryFrom?]
      · simp [hroom, carryFrom?]
  | succ pos ih =>
      have hset : pos < (idx.set pos 0).length := by simpa using hpos
      rw [carryFrom?_succ (by simpa using hpos), carryFrom?_succ hpos, List.getElem_cons_succ]
      by_cases hroom : idx[pos] + 1 < size
      · simp [hroom]
      · have hdrop : (idx.set pos 0).drop pos = 0 :: idx.drop (pos + 1) := by
          rw [List.drop_eq_getElem_cons hset, List.getElem_set_self,
            List.drop_set_of_lt pos.lt_succ_self]
        rw [if_neg hroom, if_neg hroom, List.set_cons_succ, ih (Nat.le_of_lt hset), hdrop,
          List.append_cons, ← List.replicate_succ']

-- The digits of a number are moved on to those of the next one.
theorem carryFrom?_digits {base n r : Nat} (hr : r < base ^ n) :
    carryFrom? base n (digits base n r) =
      some (if r + 1 < base ^ n then .moved (digits base n (r + 1)) else .ended) := by
  induction n generalizing r with
  | zero =>
      obtain rfl : r = 0 := by simpa using hr
      rfl
  | succ n ih =>
      obtain ⟨q, hq, s, hs, rfl⟩ := exists_highest_digit hr
      have hlength := length_digits base n s
      rw [digits_add_mul hq hs, carryFrom?_cons q hlength.ge, ih hs,
        List.drop_of_length_le hlength.le]
      by_cases hrest : s + 1 < base ^ n
      · have hnext : s + base ^ n * q + 1 = s + 1 + base ^ n * q := by omega
        rw [if_pos hrest, hnext, if_pos ((add_mul_lt_pow_iff hrest).mpr hq),
          digits_add_mul hq hrest]
        rfl
      · have hnext : s + base ^ n * q + 1 = 0 + base ^ n * (q + 1) := by
          rw [Nat.mul_succ]
          omega
        have hzero : 0 < base ^ n := Nat.zero_lt_of_lt hs
        rw [if_neg hrest, hnext, Option.map_some]
        by_cases hroom : q + 1 < base
        · rw [if_pos ((add_mul_lt_pow_iff hzero).mpr hroom), digits_add_mul hroom hzero,
            digits_of_zero]
          simp [hroom]
        · rw [if_neg fun h => hroom ((add_mul_lt_pow_iff hzero).mp h)]
          simp [hroom]

-- Counting up from a number goes through the digits of all that are left.
theorem visits_digits {base n left r : Nat} (h : r + (left + 1) = base ^ n) :
    Visits (carryFrom? base n) (digits base n r)
      ((List.range' r (left + 1)).map (digits base n)) := by
  induction left generalizing r with
  | zero =>
      have hstep := carryFrom?_digits (show r < base ^ n by omega)
      rw [if_neg (by omega)] at hstep
      exact .ended hstep
  | succ left ih =>
      have hstep := carryFrom?_digits (show r < base ^ n by omega)
      rw [if_pos (by omega)] at hstep
      rw [List.range'_succ, List.map_cons]
      exact .moved hstep (ih (by omega))

end Carry

section Power

-- The rows of `n` entries of `xs`, by counting up a vector of `n` places.
def CountedPower (xs : List α) (n : Nat) (rows : List (List α)) : Prop :=
  if n = 0 then rows = [[]]
  else if xs.isEmpty then rows = []
  else RowsFrom xs (carryFrom? xs.length n) (List.replicate n 0) rows

theorem power_eq_product (xs : List α) (n : Nat) : power xs n = product (List.replicate n xs) := by
  induction n with
  | zero => exact power_zero xs
  | succ n ih => rw [power_succ, ih, List.replicate_succ, product_cons]

theorem zipWith_replicate_left {γ : Type} (f : α → β → γ) (a : α) (bs : List β) :
    List.zipWith f (List.replicate bs.length a) bs = bs.map (f a) := by
  induction bs with
  | nil => rfl
  | cons b bs ih => rw [List.length_cons, List.replicate_succ, List.zipWith_cons_cons, ih,
      List.map_cons]

-- A row takes its entries from the places that its number has as digits.
theorem map_some_of_getElem?_power {xs row : List α} {n r : Nat}
    (h : (power xs n)[r]? = some row) :
    row.map some = (digits xs.length n r).map (xs[·]?) := by
  rw [power_eq_product] at h
  have hplaces := map_some_of_getElem?_product h
  have hzip := zipWith_replicate_left (fun set place => set[place]?) xs (digits xs.length n r)
  rw [length_digits] at hzip
  rw [hplaces, List.map_replicate, ← hzip]
  rfl

theorem map_digits_range (xs : List α) (n : Nat) :
    ((List.range (xs.length ^ n)).map (digits xs.length n)).map (·.map (xs[·]?)) =
      (power xs n).map (·.map some) := by
  rw [List.map_map]
  refine List.ext_getElem (by simp [length_power]) fun r _ hr => ?_
  rw [List.length_map] at hr
  have hrow := map_some_of_getElem?_power (List.getElem?_eq_getElem hr)
  simpa using hrow.symm

theorem power_nil (n : Nat) : power ([] : List α) (n + 1) = [] := by
  rw [power_succ]
  rfl

theorem countedPower_iff {xs : List α} {n : Nat} {rows : List (List α)} :
    CountedPower xs n rows ↔ rows = power xs n := by
  unfold CountedPower
  split_ifs with hzero hempty
  · rw [hzero, power_zero]
  · obtain ⟨n, rfl⟩ := Nat.exists_eq_succ_of_ne_zero hzero
    rw [List.isEmpty_iff.mp hempty, power_nil]
  · have hpos : 0 < xs.length := List.length_pos_of_ne_nil fun h => hempty (by rw [h]; rfl)
    obtain ⟨left, hleft⟩ := Nat.exists_eq_add_one.mpr (Nat.pow_pos (n := n) hpos)
    have hvisits := visits_digits ((Nat.zero_add (left + 1)).trans hleft.symm)
    rw [← hleft, ← List.range_eq_range', digits_of_zero] at hvisits
    exact (hvisits.rowsFrom (map_digits_range xs n)).iff

theorem power_eq_nil_iff {xs : List α} {n : Nat} : power xs n = [] ↔ xs = [] ∧ n ≠ 0 := by
  rw [← List.length_eq_zero_iff, length_power, Nat.pow_eq_zero, List.length_eq_zero_iff]

-- Counting up ends without a read outside, and gives the rows of the product of `n` copies of `xs`
-- in their order: row `r` has the entries that the digits of `r` name.
theorem power_counts_up (xs : List α) (n : Nat) :
    (∀ rows, CountedPower xs n rows ↔ rows = power xs n) ∧
      power xs n = product (List.replicate n xs) ∧
      (power xs n).length = xs.length ^ n ∧
      (∀ r row, (power xs n)[r]? = some row →
        ∃ ds, IsNumeral xs.length n r ds ∧ row.map some = ds.map (xs[·]?)) ∧
      power xs 0 = [[]] ∧ (power xs n = [] ↔ xs = [] ∧ n ≠ 0) := by
  refine ⟨fun _ => countedPower_iff, power_eq_product xs n, length_power xs n, ?_,
    power_zero xs, power_eq_nil_iff⟩
  intro r row h
  obtain ⟨hr, _⟩ := List.getElem?_eq_some_iff.mp h
  rw [length_power] at hr
  exact ⟨digits xs.length n r, isNumeral_digits hr, map_some_of_getElem?_power h⟩

end Power

end CallSuite
