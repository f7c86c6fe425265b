import CallSuite.Ordered
import Mathlib.Data.List.Nodup

namespace CallSuite

variable {α : Type}

section Sorting

variable {cmp : α → α → Ordering}

theorem keepLast_eq_self {xs : List α} (h : xs.Pairwise (cmp · · ≠ .eq)) :
    keepLast cmp xs = xs := by
  induction h with
  | nil => rfl
  | cons hx _ ih =>
      rw [keepLast_cons, ih]
      split
      · rfl
      · rw [if_neg (hx _ (by simp))]

theorem mem_keepLast [Std.LawfulEqCmp cmp] {xs : List α} {x : α} :
    x ∈ keepLast cmp xs ↔ x ∈ xs := by
  induction xs with
  | nil => rfl
  | cons y xs ih =>
      rw [keepLast_cons, List.mem_cons, ← ih]
      split <;> rename_i heq
      · simp [heq]
      · rw [heq]
        split
        · rename_i hc
          rw [Std.LawfulEqCmp.eq_of_compare hc]
          simp
        · rw [List.mem_cons]

theorem mem_sortDistinct [Std.LawfulEqCmp cmp] {xs : List α} {x : α} :
    x ∈ sortDistinct cmp xs ↔ x ∈ xs := by
  rw [sortDistinct, mem_keepLast, List.mem_mergeSort]

-- What is left comes from the list, also where entries compare equal that are not the same.
theorem mem_of_mem_sortDistinct {xs : List α} {x : α} (h : x ∈ sortDistinct cmp xs) : x ∈ xs :=
  List.mem_mergeSort.mp ((keepLast_sublist cmp _).subset h)

theorem length_sortDistinct_le (xs : List α) : (sortDistinct cmp xs).length ≤ xs.length := by
  calc (sortDistinct cmp xs).length
    _ ≤ (xs.mergeSort fun a b => (cmp a b).isLE).length := (keepLast_sublist cmp _).length_le
    _ = xs.length := List.length_mergeSort xs

theorem keepLast_cons_ne_nil (x : α) (xs : List α) : keepLast cmp (x :: xs) ≠ [] := by
  rw [keepLast_cons]
  split
  · simp
  · split <;> simp

-- Of entries that are equal one stays.
theorem eq_nil_of_sortDistinct_eq_nil {xs : List α} (h : sortDistinct cmp xs = []) : xs = [] := by
  unfold sortDistinct at h
  cases hsorted : xs.mergeSort fun a b => (cmp a b).isLE with
  | nil =>
      have hperm := List.mergeSort_perm xs fun a b => (cmp a b).isLE
      rw [hsorted] at hperm
      exact hperm.nil_eq.symm
  | cons x sorted =>
      rw [hsorted] at h
      exact absurd h (keepLast_cons_ne_nil x sorted)

-- Nothing is lost where no two entries are equal.
theorem sortDistinct_perm [Std.OrientedCmp cmp] {xs : List α} (h : xs.Pairwise (cmp · · ≠ .eq)) :
    (sortDistinct cmp xs).Perm xs := by
  have hsort := List.mergeSort_perm xs fun a b => (cmp a b).isLE
  have hne : (xs.mergeSort fun a b => (cmp a b).isLE).Pairwise (cmp · · ≠ .eq) :=
    (hsort.pairwise_iff fun hab hba => hab (Std.OrientedCmp.eq_symm hba)).mpr h
  rw [sortDistinct, keepLast_eq_self hne]
  exact hsort

theorem nodup_of_ascending [Std.ReflCmp cmp] {xs : List α} (h : xs.Pairwise (cmp · · = .lt)) :
    xs.Nodup := by
  refine h.imp fun {a b} hlt heq => ?_
  have hself : cmp b b = .eq := Std.ReflCmp.compare_self
  rw [heq, hself] at hlt
  contradiction

-- Ascending order leaves one way to write down the same entries.
theorem eq_of_perm_of_ascending [Std.OrientedCmp cmp] {xs ys : List α} (hperm : xs.Perm ys)
    (hxs : xs.Pairwise (cmp · · = .lt)) (hys : ys.Pairwise (cmp · · = .lt)) : xs = ys := by
  refine hperm.eq_of_pairwise (fun a b _ _ hab hba => ?_) hxs hys
  rw [Std.OrientedCmp.gt_of_lt hab] at hba
  contradiction

theorem sortDistinct_eq_self [Std.TransCmp cmp] {xs : List α} (h : xs.Pairwise (cmp · · = .lt)) :
    sortDistinct cmp xs = xs := by
  have hne : xs.Pairwise (cmp · · ≠ .eq) := h.imp fun hlt heq => by
    rw [hlt] at heq
    cases heq
  exact eq_of_perm_of_ascending (sortDistinct_perm hne) (pairwise_sortDistinct cmp xs) h

-- The entries alone make out an ascending list.
theorem eq_of_mem_iff_of_ascending [Std.TransCmp cmp] {xs ys : List α}
    (hxs : xs.Pairwise (cmp · · = .lt)) (hys : ys.Pairwise (cmp · · = .lt))
    (h : ∀ x, x ∈ xs ↔ x ∈ ys) : xs = ys := by
  have hperm := (List.perm_ext_iff_of_nodup (nodup_of_ascending hxs) (nodup_of_ascending hys)).mpr h
  exact eq_of_perm_of_ascending hperm hxs hys

section Last

-- No entry behind it is equal to it.
def IsLast (cmp : α → α → Ordering) (x : α) (xs : List α) : Prop :=
  ∃ before after, xs = before ++ x :: after ∧ ∀ z ∈ after, cmp x z ≠ .eq

theorem isLast_cons {x y : α} {xs : List α} : IsLast cmp x (y :: xs) ↔
    (x = y ∧ ∀ z ∈ xs, cmp x z ≠ .eq) ∨ IsLast cmp x xs := by
  constructor
  · rintro ⟨before, after, heq, hafter⟩
    cases before with
    | nil =>
        obtain ⟨rfl, rfl⟩ := List.cons.inj heq
        exact .inl ⟨rfl, hafter⟩
    | cons z before =>
        obtain ⟨_, heq⟩ := List.cons.inj heq
        exact .inr ⟨before, after, heq, hafter⟩
  · rintro (⟨rfl, hxs⟩ | ⟨before, after, rfl, hafter⟩)
    · exact ⟨[], xs, rfl, hxs⟩
    · exact ⟨y :: before, after, rfl, hafter⟩

-- What is left in front is equal to what came first.
theorem exists_keepLast_cons [Std.ReflCmp cmp] (x : α) (xs : List α) :
    ∃ y kept, keepLast cmp (x :: xs) = y :: kept ∧ cmp x y = .eq := by
  rw [keepLast_cons]
  split
  · exact ⟨x, [], rfl, Std.ReflCmp.compare_self⟩
  next y kept _ =>
    split
    next heq => exact ⟨y, kept, rfl, heq⟩
    next => exact ⟨x, y :: kept, rfl, Std.ReflCmp.compare_self⟩

-- In a sorted list equal entries stand side by side, so it is enough to look at the next one that
-- is left.
theorem ne_of_head_keepLast_ne [Std.TransCmp cmp] {x y : α} {xs kept : List α}
    (hsorted : (x :: xs).Pairwise fun a b => (cmp a b).isLE) (hkept : keepLast cmp xs = y :: kept)
    (hne : cmp x y ≠ .eq) : ∀ z ∈ xs, cmp x z ≠ .eq := by
  intro z hz heq
  cases xs with
  | nil => cases hz
  | cons w xs =>
      obtain ⟨hx, hxs⟩ := List.pairwise_cons.mp hsorted
      obtain ⟨_, _, hhead, hwy⟩ : ∃ v vs, keepLast cmp (w :: xs) = v :: vs ∧ cmp w v = .eq :=
        exists_keepLast_cons w xs
      rw [hkept] at hhead
      cases hhead
      have hwz : (cmp w z).isLE := by
        obtain rfl | hz := List.mem_cons.mp hz
        · exact Std.ReflCmp.isLE_rfl
        · exact (List.pairwise_cons.mp hxs).1 z hz
      have hzx : (cmp z x).isLE := by
        rw [Std.OrientedCmp.eq_symm heq]
        rfl
      have hxw : cmp x w = .eq :=
        Std.OrientedCmp.isLE_antisymm (hx w (by simp)) (Std.TransCmp.isLE_trans hwz hzx)
      exact hne (Std.TransCmp.eq_trans hxw hwy)

theorem mem_keepLast_iff [Std.TransCmp cmp] {xs : List α} {x : α}
    (hsorted : xs.Pairwise fun a b => (cmp a b).isLE) :
    x ∈ keepLast cmp xs ↔ IsLast cmp x xs := by
  induction xs with
  | nil => simp [keepLast, IsLast]
  | cons y xs ih =>
      have ih := ih (List.pairwise_cons.mp hsorted).2
      rw [isLast_cons, ← ih, keepLast_cons]
      cases hkept : keepLast cmp xs with
      | nil =>
          have hxs : xs = [] := by
            cases xs with
            | nil => rfl
            | cons z xs => exact absurd hkept (keepLast_cons_ne_nil z xs)
          simp [hxs]
      | cons z kept =>
          have hz : z ∈ xs := (keepLast_sublist cmp xs).subset (hkept ▸ List.mem_cons_self)
          by_cases heq : cmp y z = .eq
          · have hnot : ¬ (x = y ∧ ∀ z ∈ xs, cmp x z ≠ .eq) := by
              rintro ⟨rfl, hall⟩
              exact hall z hz heq
            simp only [heq, ↓reduceIte, hnot, false_or]
          · have hall := ne_of_head_keepLast_ne hsorted hkept heq
            have hlast : (x = y ∧ ∀ z ∈ xs, cmp x z ≠ .eq) ↔ x = y := by
              refine and_iff_left_of_imp ?_
              rintro rfl
              exact hall
            simp only [heq, ↓reduceIte, hlast, List.mem_cons]

theorem isLast_iff_getLast?_filter [Std.ReflCmp cmp] {x : α} {xs : List α} :
    IsLast cmp x xs ↔ (xs.filter fun y => cmp x y = .eq).getLast? = some x := by
  have hself : cmp x x = .eq := Std.ReflCmp.compare_self
  rw [List.getLast?_filter, List.find?_eq_some_iff_append]
  simp only [hself, decide_true, true_and, Bool.not_eq_true', decide_eq_false_iff_not]
  constructor
  · rintro ⟨before, after, rfl, hafter⟩
    exact ⟨after.reverse, before.reverse, by simp, by simpa using hafter⟩
  · rintro ⟨after, before, heq, hafter⟩
    refine ⟨before.reverse, after.reverse, ?_, by simpa using hafter⟩
    rw [← List.reverse_reverse xs, heq]
    simp

theorem isLE_total [Std.OrientedCmp cmp] (a b : α) : ((cmp a b).isLE || (cmp b a).isLE) = true := by
  have hswap : cmp b a = (cmp a b).swap := Std.OrientedCmp.eq_swap
  rw [hswap]
  cases cmp a b <;> rfl

-- The sort does not move equal entries past each other.
theorem filter_mergeSort [Std.TransCmp cmp] (x : α) (xs : List α) :
    (xs.mergeSort fun a b => (cmp a b).isLE).filter (fun y => cmp x y = .eq) =
      xs.filter fun y => cmp x y = .eq := by
  have hequal : (xs.filter fun y => cmp x y = .eq).Pairwise fun a b => (cmp a b).isLE := by
    refine List.pairwise_of_forall_mem_list fun a ha b hb => ?_
    have ha := of_decide_eq_true (List.mem_filter.mp ha).2
    have hb := of_decide_eq_true (List.mem_filter.mp hb).2
    rw [Std.TransCmp.eq_trans (Std.OrientedCmp.eq_symm ha) hb]
    rfl
  have hsub := List.sublist_mergeSort (fun _ _ _ => Std.TransCmp.isLE_trans) isLE_total hequal
    List.filter_sublist
  have hfilter := hsub.filter fun y => cmp x y = .eq
  rw [List.filter_filter] at hfilter
  simp only [Bool.and_self] at hfilter
  have hperm := (List.mergeSort_perm xs fun a b => (cmp a b).isLE).filter fun y => cmp x y = .eq
  exact (hfilter.eq_of_length hperm.length_eq.symm).symm

-- Of entries that are equal the last one stays.
theorem mem_sortDistinct_iff [Std.TransCmp cmp] {xs : List α} {x : α} :
    x ∈ sortDistinct cmp xs ↔ IsLast cmp x xs := by
  have hsorted : (xs.mergeSort fun a b => (cmp a b).isLE).Pairwise fun a b => (cmp a b).isLE :=
    List.pairwise_mergeSort (fun _ _ _ => Std.TransCmp.isLE_trans) isLE_total xs
  rw [sortDistinct, mem_keepLast_iff hsorted, isLast_iff_getLast?_filter,
    isLast_iff_getLast?_filter, filter_mergeSort]

-- An entry that comes again at the end is the one that stays.
theorem sortDistinct_append_of_mem [Std.TransCmp cmp] {repeats kept : List α}
    (hkept : kept.Pairwise (cmp · · = .lt)) (hrepeats : ∀ x ∈ repeats, x ∈ kept) :
    sortDistinct cmp (repeats ++ kept) = kept := by
  refine eq_of_mem_iff_of_ascending (pairwise_sortDistinct cmp _) hkept fun x => ?_
  constructor
  · intro hx
    rcases List.mem_append.mp (mem_of_mem_sortDistinct hx) with hrepeat | hx
    · exact hrepeats x hrepeat
    · exact hx
  · intro hx
    obtain ⟨before, after, rfl⟩ := List.append_of_mem hx
    refine mem_sortDistinct_iff.mpr ⟨repeats ++ before, after, by simp, fun z hz => ?_⟩
    have hlt := (List.pairwise_cons.mp (List.pairwise_append.mp hkept).2.1).1 z hz
    rw [hlt]
    simp

end Last

end Sorting

-- A list without repetition has one sublist for each choice of its members.
theorem eq_of_sublist_of_mem_iff {xs ys zs : List α} (h : zs.Nodup) (hxs : xs.Sublist zs)
    (hys : ys.Sublist zs) (hmem : ∀ x, x ∈ xs ↔ x ∈ ys) : xs = ys := by
  induction zs generalizing xs ys with
  | nil => rw [List.sublist_nil.mp hxs, List.sublist_nil.mp hys]
  | cons z zs ih =>
      obtain ⟨hz, hzs⟩ := List.nodup_cons.mp h
      cases hxs with
      | cons _ hxs => cases hys with
        | cons _ hys => exact ih hzs hxs hys hmem
        | cons_cons _ hys => exact absurd (hxs.subset ((hmem z).mpr (by simp))) hz
      | cons_cons _ hxs => cases hys with
        | cons _ hys => exact absurd (hys.subset ((hmem z).mp (by simp))) hz
        | cons_cons _ hys =>
            refine congrArg (z :: ·) (ih hzs hxs hys fun x => ?_)
            have hx := hmem x
            simp only [List.mem_cons] at hx
            by_cases hxz : x = z
            · subst hxz
              exact iff_of_false (fun hm => hz (hxs.subset hm)) fun hm => hz (hys.subset hm)
            · simpa [hxz] using hx

namespace OrderedSet

variable [Ord α]

theorem nodup_toList [Std.ReflOrd α] (s : OrderedSet α) : s.toList.Nodup :=
  nodup_of_ascending s.ascending

@[simp] theorem mem_filter {p : α → Bool} {s : OrderedSet α} {x : α} :
    x ∈ s.filter p ↔ x ∈ s ∧ p x :=
  List.mem_filter

@[simp] theorem mem_ofList [Std.TransOrd α] [Std.LawfulEqOrd α] {xs : List α} {x : α} :
    x ∈ ofList xs ↔ x ∈ xs := by
  rw [← mem_toList, ofList, mem_sortDistinct]

theorem ofList_toList [Std.TransOrd α] (s : OrderedSet α) : ofList s.toList = s := by
  obtain ⟨xs, h⟩ := s
  simp only [ofList, sortDistinct_eq_self h]

theorem ext_mem [Std.TransOrd α] {s t : OrderedSet α} (h : ∀ x, x ∈ s ↔ x ∈ t) : s = t := by
  have hlist := eq_of_mem_iff_of_ascending s.ascending t.ascending h
  cases s
  cases t
  simpa using hlist

theorem eq_ofList_iff [Std.TransOrd α] [Std.LawfulEqOrd α] {s : OrderedSet α} {xs : List α} :
    s = ofList xs ↔ ∀ x, x ∈ s ↔ x ∈ xs := by
  constructor
  · rintro rfl x
    exact mem_ofList
  · intro h
    exact ext_mem fun x => (h x).trans mem_ofList.symm

end OrderedSet

end CallSuite
