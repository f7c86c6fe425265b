import CallSuite.Distinct
import Mathlib.Data.List.Nodup
import Mathlib.Data.List.Perm.Subperm

namespace CallSuite

variable {α β : Type} [BEq α] [LawfulBEq α]

-- Each step removes an entry wherever it comes again, so what is left to go through is shorter.
theorem nodup_eraseDups (xs : List α) : xs.eraseDups.Nodup := by
  match xs with
  | [] => exact List.nodup_nil
  | x :: xs =>
      rw [List.eraseDups_cons, List.nodup_cons, List.mem_eraseDups]
      exact ⟨by simp, nodup_eraseDups (xs.filter fun y => !y == x)⟩
termination_by xs.length
decreasing_by exact Nat.lt_succ_of_le (List.length_filter_le _ _)

theorem eraseDups_eq_self {xs : List α} (h : xs.Nodup) : xs.eraseDups = xs := by
  induction h with
  | nil => rfl
  | @cons x xs hx _ ih =>
      have hfilter : xs.filter (fun y => !y == x) = xs := by
        refine List.filter_eq_self.mpr fun y hy => ?_
        simpa using (hx y hy).symm
      rw [List.eraseDups_cons, hfilter, ih]

theorem nodup_of_length_le_eraseDups {xs : List α} (h : xs.length ≤ xs.eraseDups.length) :
    xs.Nodup := by
  have hsub : xs.eraseDups ⊆ xs := fun _ hx => List.mem_eraseDups.mp hx
  have hperm := ((nodup_eraseDups xs).subperm hsub).perm_of_length_le h
  exact hperm.nodup_iff.mp (nodup_eraseDups xs)

omit [LawfulBEq α] in
theorem eraseDups_eq_nil {xs : List α} : xs.eraseDups = [] ↔ xs = [] := by
  cases xs <;> simp [List.eraseDups_cons]

theorem filter_eraseDups (p : α → Bool) (xs : List α) :
    xs.eraseDups.filter p = (xs.filter p).eraseDups := by
  match xs with
  | [] => rfl
  | x :: xs =>
      have ih := filter_eraseDups p (xs.filter fun y => !y == x)
      cases hp : p x with
      | true =>
          rw [List.eraseDups_cons, List.filter_cons_of_pos hp, List.filter_cons_of_pos hp,
            List.eraseDups_cons, ih, List.filter_filter, List.filter_filter]
          simp only [Bool.and_comm]
      | false =>
          have hfilter : (xs.filter fun y => !y == x).filter p = xs.filter p := by
            rw [List.filter_filter]
            refine List.filter_congr fun y _ => ?_
            by_cases hy : y = x <;> simp [hy, hp]
          rw [List.eraseDups_cons, List.filter_cons_of_neg (by simp [hp]),
            List.filter_cons_of_neg (by simp [hp]), ih, hfilter]
termination_by xs.length
decreasing_by exact Nat.lt_succ_of_le (List.length_filter_le _ _)

theorem eraseDups_map_eraseDups [BEq β] [LawfulBEq β] (f : α → β) (xs : List α) :
    (xs.eraseDups.map f).eraseDups = (xs.map f).eraseDups := by
  match xs with
  | [] => rfl
  | x :: xs =>
      let others := xs.filter fun y => !f y == f x
      have ih := eraseDups_map_eraseDups f others
      have hothers : (xs.filter fun y => !y == x).filter (fun y => !f y == f x) = others := by
        rw [List.filter_filter]
        refine List.filter_congr fun y _ => ?_
        by_cases hy : y = x <;> simp [hy]
      rw [List.eraseDups_cons, List.map_cons, List.map_cons, List.eraseDups_cons,
        List.eraseDups_cons, List.filter_map, List.filter_map, filter_eraseDups]
      exact congrArg (f x :: ·) (hothers ▸ ih)
termination_by xs.length
decreasing_by exact Nat.lt_succ_of_le (List.length_filter_le _ _)

theorem eraseDups_map [BEq β] [LawfulBEq β] {f : α → β} (hf : Function.Injective f)
    (xs : List α) : (xs.map f).eraseDups = xs.eraseDups.map f := by
  rw [← eraseDups_map_eraseDups, eraseDups_eq_self ((nodup_eraseDups xs).map hf)]

section FlatMap

variable [BEq β] [LawfulBEq β] {f : α → List β}
  (hdisjoint : ∀ x y b, b ∈ f x → b ∈ f y → x = y)

include hdisjoint

theorem removeAll_flatMap (x : α) (xs : List α) :
    (xs.flatMap f).removeAll (f x) = (xs.filter fun y => !y == x).flatMap f := by
  induction xs with
  | nil => rfl
  | cons y xs ih =>
      simp only [List.removeAll, List.flatMap_cons, List.filter_append] at ih ⊢
      rw [ih]
      by_cases hy : y = x
      · subst hy
        simp
      · have hkept : ∀ b ∈ f y, b ∉ f x := fun b hb hbx => hy (hdisjoint y x b hb hbx)
        simpa [hy] using hkept

-- No two entries share a member, so a list comes again only where its entry does.
theorem eraseDups_flatMap (hf : ∀ x, (f x).Nodup) (xs : List α) :
    (xs.flatMap f).eraseDups = xs.eraseDups.flatMap f := by
  match xs with
  | [] => rfl
  | x :: xs =>
      have ih := eraseDups_flatMap hf (xs.filter fun y => !y == x)
      rw [List.flatMap_cons, List.eraseDups_append, eraseDups_eq_self (hf x),
        removeAll_flatMap hdisjoint, ih, List.eraseDups_cons, List.flatMap_cons]
termination_by xs.length
decreasing_by exact Nat.lt_succ_of_le (List.length_filter_le _ _)

end FlatMap

-- What comes again was looked at before.
theorem findSome?_eraseDups (f : α → Option β) (xs : List α) :
    xs.eraseDups.findSome? f = xs.findSome? f := by
  match xs with
  | [] => rfl
  | x :: xs =>
      have ih := findSome?_eraseDups f (xs.filter fun y => !y == x)
      rw [List.eraseDups_cons, List.findSome?_cons, List.findSome?_cons]
      cases hx : f x with
      | some b => rfl
      | none =>
          have hothers : (xs.filter fun y => !y == x).findSome? f = xs.findSome? f := by
            rw [← List.head?_filterMap, ← List.head?_filterMap, List.filterMap_filter]
            congr 2
            funext y
            by_cases hy : y = x <;> simp [hy, hx]
          exact ih.trans hothers
termination_by xs.length
decreasing_by exact Nat.lt_succ_of_le (List.length_filter_le _ _)

variable [Hashable α]

-- What the kernel is to compute is computed without the table.
theorem distinct_eq : (distinct : List α → List α) = List.eraseDups := funext distinct_eq_eraseDups

@[simp] theorem mem_distinct {xs : List α} {x : α} : x ∈ distinct xs ↔ x ∈ xs := by
  rw [distinct_eq_eraseDups, List.mem_eraseDups]

theorem nodup_distinct (xs : List α) : (distinct xs).Nodup := by
  rw [distinct_eq_eraseDups]
  exact nodup_eraseDups xs

theorem distinct_map [BEq β] [LawfulBEq β] [Hashable β] {f : α → β} (hf : Function.Injective f)
    (xs : List α) : distinct (xs.map f) = (distinct xs).map f := by
  rw [distinct_eq_eraseDups, distinct_eq_eraseDups, eraseDups_map hf]

theorem distinct_eq_self {xs : List α} (h : xs.Nodup) : distinct xs = xs := by
  rw [distinct_eq_eraseDups, eraseDups_eq_self h]

end CallSuite
