namespace CallSuite

-- Of a run of entries that compare equal only the last one stays.
def keepLast (cmp : α → α → Ordering) (xs : List α) : List α :=
  xs.foldr (fun x kept => match kept with
    | [] => [x]
    | y :: _ => if cmp x y = .eq then kept else x :: kept) []

-- The sort is stable, so among equal entries the last one of `xs` stays.
def sortDistinct (cmp : α → α → Ordering) (xs : List α) : List α :=
  keepLast cmp (xs.mergeSort fun a b => (cmp a b).isLE)

theorem keepLast_cons (cmp : α → α → Ordering) (x : α) (xs : List α) :
    keepLast cmp (x :: xs) = match keepLast cmp xs with
      | [] => [x]
      | y :: kept => if cmp x y = .eq then y :: kept else x :: y :: kept := by
  simp only [keepLast, List.foldr_cons]
  split <;> rename_i h <;> simp [h]

theorem keepLast_sublist (cmp : α → α → Ordering) (xs : List α) :
    (keepLast cmp xs).Sublist xs := by
  induction xs with
  | nil => exact .slnil
  | cons x xs ih =>
      rw [keepLast_cons]
      split <;> rename_i h
      · simp
      · rw [h] at ih
        split
        · exact ih.cons x
        · exact ih.cons_cons x

-- Neighbours that are not equal ascend strictly, and strict order carries over.
theorem pairwise_keepLast {cmp : α → α → Ordering} [Std.TransCmp cmp] {xs : List α}
    (hsorted : xs.Pairwise fun a b => (cmp a b).isLE) :
    (keepLast cmp xs).Pairwise (cmp · · = .lt) := by
  induction xs with
  | nil => exact .nil
  | cons x xs ih =>
      obtain ⟨hx, hxs⟩ := List.pairwise_cons.mp hsorted
      have hkept := ih hxs
      have hsub := keepLast_sublist cmp xs
      rw [keepLast_cons]
      split <;> rename_i h
      · simp
      · rename_i y kept
        rw [h] at hkept hsub
        split
        · exact hkept
        · rename_i hne
          have hxy : cmp x y = .lt := by
            have := hx y (hsub.subset (by simp))
            cases hc : cmp x y <;> simp_all
          refine List.pairwise_cons.mpr ⟨fun z hz => ?_, hkept⟩
          rcases List.mem_cons.mp hz with rfl | hz
          · exact hxy
          · exact Std.TransCmp.lt_trans hxy ((List.pairwise_cons.mp hkept).1 z hz)

theorem pairwise_sortDistinct (cmp : α → α → Ordering) [Std.TransCmp cmp] (xs : List α) :
    (sortDistinct cmp xs).Pairwise (cmp · · = .lt) := by
  refine pairwise_keepLast (List.pairwise_mergeSort ?_ ?_ xs)
  · exact fun _ _ _ => Std.TransCmp.isLE_trans
  · intro a b
    have hswap : cmp b a = (cmp a b).swap := Std.OrientedCmp.eq_swap
    rw [hswap]
    cases cmp a b <;> rfl

-- A finite set, written as its members in ascending order: one list for each set.
structure OrderedSet (α : Type) [Ord α] where
  toList : List α
  ascending : toList.Pairwise (compare · · = .lt)

namespace OrderedSet

variable {α : Type} [Ord α]

def ofList [Std.TransOrd α] (xs : List α) : OrderedSet α :=
  ⟨sortDistinct compare xs, pairwise_sortDistinct compare xs⟩

def filter (p : α → Bool) (s : OrderedSet α) : OrderedSet α :=
  ⟨s.toList.filter p, s.ascending.filter p⟩

def size (s : OrderedSet α) : Nat := s.toList.length

def isEmpty (s : OrderedSet α) : Bool := s.toList.isEmpty

instance : Membership α (OrderedSet α) := ⟨fun s x => x ∈ s.toList⟩

@[simp] theorem mem_toList {x : α} {s : OrderedSet α} : x ∈ s.toList ↔ x ∈ s := .rfl

instance [DecidableEq α] (x : α) (s : OrderedSet α) : Decidable (x ∈ s) :=
  inferInstanceAs (Decidable (x ∈ s.toList))

end OrderedSet

end CallSuite
