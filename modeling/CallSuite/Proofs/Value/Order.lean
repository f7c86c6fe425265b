import CallSuite.Value.Basic
import Mathlib.Data.Nat.Basic

namespace CallSuite

theorem Binary64.isNegative_iff {x : Binary64} : x.isNegative ↔ signBit ≤ x.bits.toNat :=
  decide_eq_true_iff

-- The sign and the magnitude are all the bits there are.
theorem Binary64.rank_injective {x y : Binary64} (h : x.rank = y.rank) : x = y := by
  have hx := x.bits.toNat_lt
  have hy := y.bits.toNat_lt
  have hbits : x.bits.toNat = y.bits.toNat := by
    simp only [rank, isNegative_iff, magnitude, signBit] at h
    split_ifs at h <;> omega
  cases x
  cases y
  exact congrArg Binary64.mk (UInt64.toNat_inj.mp hbits)

namespace Value

theorem compare_of_rank_ne {a b : Value} (h : a.rank ≠ b.rank) :
    compare a b = Ord.compare a.rank b.rank := by
  cases a <;> cases b <;> try rfl
  all_goals try exact absurd rfl h
  rename_i c xs d ys
  have hcd : c ≠ d := by
    rintro rfl
    cases c <;> exact h rfl
  simp only [compare, if_neg hcd]

theorem rank_eq_of_compare_eq {a b : Value} (h : compare a b = .eq) : a.rank = b.rank := by
  by_contra hne
  rw [compare_of_rank_ne hne] at h
  exact hne (Nat.compare_eq_eq.mp h)

theorem rank_le_of_compare_lt {a b : Value} (h : compare a b = .lt) : a.rank ≤ b.rank := by
  by_cases heq : a.rank = b.rank
  · omega
  · rw [compare_of_rank_ne heq] at h
    exact Nat.le_of_lt (Nat.compare_eq_lt.mp h)

theorem compare_lt_of_rank_lt {a b : Value} (h : a.rank < b.rank) : compare a b = .lt := by
  rw [compare_of_rank_ne (Nat.ne_of_lt h)]
  exact Nat.compare_eq_lt.mpr h

theorem compare_collection (c : Collection) (xs ys : List Value) :
    compare (.collection c xs) (.collection c ys) = compareItems xs ys := by
  simp only [compare, ↓reduceIte]

-- Values of one rank are of one kind, so it is their contents that are compared.
theorem exists_of_rank_eq {a b : Value} (h : a.rank = b.rank) :
    match a with
    | .bool _ => ∃ y, b = .bool y
    | .int _ => ∃ y, b = .int y
    | .float _ => ∃ y, b = .float y
    | .str _ => ∃ y, b = .str y
    | .collection c _ => ∃ ys, b = .collection c ys
    | .dict _ => ∃ ys, b = .dict ys := by
  cases a with
  | collection c xs => cases b with
    | collection d ys => cases c <;> cases d <;> simp [rank] at h ⊢
    | _ => cases c <;> simp [rank] at h
  | _ => cases b with
    | collection d ys => cases d <;> simp [rank] at h
    | _ => first | exact ⟨_, rfl⟩ | simp [rank] at h

-- A value equals itself, member by member.
mutual

theorem compare_self (v : Value) : compare v v = .eq := by
  match v with
  | .bool b => exact Std.ReflOrd.compare_self
  | .int i => exact Std.ReflOrd.compare_self
  | .float x => exact Std.ReflOrd.compare_self (a := x.rank)
  | .str s => exact Std.ReflOrd.compare_self
  | .collection c items =>
      rw [compare_collection]
      exact compareItems_self items
  | .dict entries => exact compareEntries_self entries

theorem compareItems_self (xs : List Value) : compareItems xs xs = .eq := by
  match xs with
  | [] => rfl
  | x :: xs =>
      rw [compareItems, compare_self x]
      exact compareItems_self xs

theorem compareEntries_self (xs : List (Value × Value)) : compareEntries xs xs = .eq := by
  match xs with
  | [] => rfl
  | (k, v) :: xs =>
      simp only [compareEntries, compare_self k, compare_self v]
      exact compareEntries_self xs

end

mutual

theorem eq_of_compare (a b : Value) (h : compare a b = .eq) : a = b := by
  have hkind := exists_of_rank_eq (rank_eq_of_compare_eq h)
  match a with
  | .bool a =>
      obtain ⟨b, rfl⟩ := hkind
      exact congrArg _ (Std.LawfulEqOrd.eq_of_compare h)
  | .int a =>
      obtain ⟨b, rfl⟩ := hkind
      exact congrArg _ (Std.LawfulEqOrd.eq_of_compare h)
  | .float a =>
      obtain ⟨b, rfl⟩ := hkind
      exact congrArg _ (Binary64.rank_injective (Std.LawfulEqOrd.eq_of_compare h))
  | .str a =>
      obtain ⟨b, rfl⟩ := hkind
      exact congrArg _ (Std.LawfulEqOrd.eq_of_compare h)
  | .collection c xs =>
      obtain ⟨ys, rfl⟩ := hkind
      rw [compare_collection] at h
      rw [eq_of_compareItems xs ys h]
  | .dict xs =>
      obtain ⟨ys, rfl⟩ := hkind
      exact congrArg _ (eq_of_compareEntries xs ys h)

theorem eq_of_compareItems (xs ys : List Value) (h : compareItems xs ys = .eq) : xs = ys := by
  match xs, ys with
  | [], [] => rfl
  | x :: xs, y :: ys =>
      rw [compareItems] at h
      split at h
      · rename_i hxy
        rw [eq_of_compare x y hxy, eq_of_compareItems xs ys h]
      · contradiction

theorem eq_of_compareEntries (xs ys : List (Value × Value)) (h : compareEntries xs ys = .eq) :
    xs = ys := by
  match xs, ys with
  | [], [] => rfl
  | (k, v) :: xs, (l, w) :: ys =>
      rw [compareEntries] at h
      split at h
      · rename_i hkl
        split at h
        · rename_i hvw
          rw [eq_of_compare k l hkl, eq_of_compare v w hvw, eq_of_compareEntries xs ys h]
        · contradiction
      · contradiction

end

theorem compare_eq_iff {a b : Value} : compare a b = .eq ↔ a = b := by
  constructor
  · exact eq_of_compare a b
  · rintro rfl
    exact compare_self a

instance : DecidableEq Value := fun _ _ => decidable_of_iff _ compare_eq_iff

-- Turning a comparison around swaps its outcome.
mutual

theorem compare_swap (a b : Value) : compare a b = (compare b a).swap := by
  by_cases hrank : a.rank = b.rank
  · have hkind := exists_of_rank_eq hrank
    match a with
    | .bool a =>
        obtain ⟨b, rfl⟩ := hkind
        exact Std.OrientedOrd.eq_swap
    | .int a =>
        obtain ⟨b, rfl⟩ := hkind
        exact Std.OrientedOrd.eq_swap
    | .float a =>
        obtain ⟨b, rfl⟩ := hkind
        exact Std.OrientedOrd.eq_swap (a := a.rank)
    | .str a =>
        obtain ⟨b, rfl⟩ := hkind
        exact Std.OrientedOrd.eq_swap
    | .collection c xs =>
        obtain ⟨ys, rfl⟩ := hkind
        rw [compare_collection, compare_collection]
        exact compareItems_swap xs ys
    | .dict xs =>
        obtain ⟨ys, rfl⟩ := hkind
        exact compareEntries_swap xs ys
  · rw [compare_of_rank_ne hrank, compare_of_rank_ne (Ne.symm hrank)]
    exact Std.OrientedOrd.eq_swap

theorem compareItems_swap (xs ys : List Value) :
    compareItems xs ys = (compareItems ys xs).swap := by
  match xs, ys with
  | [], [] => rfl
  | [], _ :: _ => rfl
  | _ :: _, [] => rfl
  | x :: xs, y :: ys =>
      have hxs := compareItems_swap xs ys
      rw [compareItems, compareItems, compare_swap x y]
      cases compare y x
      · rfl
      · exact hxs
      · rfl

theorem compareEntries_swap (xs ys : List (Value × Value)) :
    compareEntries xs ys = (compareEntries ys xs).swap := by
  match xs, ys with
  | [], [] => rfl
  | [], _ :: _ => rfl
  | _ :: _, [] => rfl
  | (k, v) :: xs, (l, w) :: ys =>
      have hxs := compareEntries_swap xs ys
      rw [compareEntries, compareEntries, compare_swap k l, compare_swap v w]
      cases compare l k
      · rfl
      · cases compare w v
        · rfl
        · exact hxs
        · rfl
      · rfl

end

-- One sequence is less than another at the first place where they differ.
theorem compareItems_cons_lt_iff {x y : Value} {xs ys : List Value} :
    compareItems (x :: xs) (y :: ys) = .lt ↔
      compare x y = .lt ∨ x = y ∧ compareItems xs ys = .lt := by
  rw [compareItems, ← compare_eq_iff]
  cases compare x y <;> simp

theorem compareEntries_cons_lt_iff {k l v w : Value} {xs ys : List (Value × Value)} :
    compareEntries ((k, v) :: xs) ((l, w) :: ys) = .lt ↔
      compare k l = .lt ∨
        k = l ∧ (compare v w = .lt ∨ v = w ∧ compareEntries xs ys = .lt) := by
  rw [compareEntries, ← compare_eq_iff, ← compare_eq_iff]
  cases compare k l <;> cases compare v w <;> simp

mutual

theorem compare_lt_trans (a b c : Value) (hab : compare a b = .lt) (hbc : compare b c = .lt) :
    compare a c = .lt := by
  have hle := rank_le_of_compare_lt hab
  have hle' := rank_le_of_compare_lt hbc
  by_cases hrank : a.rank = b.rank ∧ a.rank = c.rank
  · have hkind := exists_of_rank_eq hrank.1
    have hkind' := exists_of_rank_eq hrank.2
    match a with
    | .bool a =>
        obtain ⟨⟨b, rfl⟩, c, rfl⟩ := And.intro hkind hkind'
        change Ord.compare a c = .lt
        exact Std.TransCmp.lt_trans hab hbc
    | .int a =>
        obtain ⟨⟨b, rfl⟩, c, rfl⟩ := And.intro hkind hkind'
        change Ord.compare a c = .lt
        exact Std.TransCmp.lt_trans hab hbc
    | .float a =>
        obtain ⟨⟨b, rfl⟩, c, rfl⟩ := And.intro hkind hkind'
        change Ord.compare a.rank c.rank = .lt
        exact Std.TransCmp.lt_trans hab hbc
    | .str a =>
        obtain ⟨⟨b, rfl⟩, c, rfl⟩ := And.intro hkind hkind'
        change Ord.compare a c = .lt
        exact Std.TransCmp.lt_trans hab hbc
    | .collection k xs =>
        obtain ⟨⟨ys, rfl⟩, zs, rfl⟩ := And.intro hkind hkind'
        rw [compare_collection] at hab hbc ⊢
        exact compareItems_lt_trans xs ys zs hab hbc
    | .dict xs =>
        obtain ⟨⟨ys, rfl⟩, zs, rfl⟩ := And.intro hkind hkind'
        exact compareEntries_lt_trans xs ys zs hab hbc
  · exact compare_lt_of_rank_lt (by omega)

theorem compareItems_lt_trans (xs ys zs : List Value) (hxy : compareItems xs ys = .lt)
    (hyz : compareItems ys zs = .lt) : compareItems xs zs = .lt := by
  match xs, ys, zs with
  | [], _ :: _, _ :: _ => rfl
  | x :: xs, y :: ys, z :: zs =>
      rw [compareItems_cons_lt_iff] at hxy hyz ⊢
      rcases hxy with hlt | ⟨rfl, hxy⟩ <;> rcases hyz with hlt' | ⟨rfl, hyz⟩
      · exact .inl (compare_lt_trans x y z hlt hlt')
      · exact .inl hlt
      · exact .inl hlt'
      · exact .inr ⟨rfl, compareItems_lt_trans xs ys zs hxy hyz⟩

theorem compareEntries_lt_trans (xs ys zs : List (Value × Value))
    (hxy : compareEntries xs ys = .lt) (hyz : compareEntries ys zs = .lt) :
    compareEntries xs zs = .lt := by
  match xs, ys, zs with
  | [], _ :: _, _ :: _ => rfl
  | (k, u) :: xs, (l, v) :: ys, (m, w) :: zs =>
      rw [compareEntries_cons_lt_iff] at hxy hyz ⊢
      rcases hxy with hlt | ⟨rfl, hxy⟩ <;> rcases hyz with hlt' | ⟨rfl, hyz⟩
      · exact .inl (compare_lt_trans k l m hlt hlt')
      · exact .inl hlt
      · exact .inl hlt'
      · refine .inr ⟨rfl, ?_⟩
        rcases hxy with hlt | ⟨rfl, hxy⟩ <;> rcases hyz with hlt' | ⟨rfl, hyz⟩
        · exact .inl (compare_lt_trans u v w hlt hlt')
        · exact .inl hlt
        · exact .inl hlt'
        · exact .inr ⟨rfl, compareEntries_lt_trans xs ys zs hxy hyz⟩

end

instance : Std.TransCmp compare where
  eq_swap := compare_swap _ _
  isLE_trans {a b c} hab hbc := by
    rw [Ordering.isLE_iff_eq_lt_or_eq_eq, compare_eq_iff] at hab hbc ⊢
    rcases hab with hab | rfl
    · rcases hbc with hbc | rfl
      · exact .inl (compare_lt_trans a b c hab hbc)
      · exact .inl hab
    · exact hbc

instance : Std.LawfulEqCmp compare where
  compare_self := compare_self _
  eq_of_compare := eq_of_compare _ _

end Value

end CallSuite
