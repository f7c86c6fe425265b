import CallSuite.Proofs.Clause.Alignment
import CallSuite.Proofs.Tree.Keeps

namespace CallSuite

-- What decorating does to a tree. A node that is refused, or that is not reached, stays as it is
-- together with everything below it, and nothing behind it is reached either.
inductive Decorates (role : Role) : TypeTree → TypeTree → (complete : Bool) → Prop where
  | refused : Decorates role tree tree false
  | int (hs : s.get role = none) (hfill : s.Fills role ys s') :
      Decorates role (.int s) (.int s') true
  | bool (hs : s.get role = none) (hfill : s.Fills role ys s') :
      Decorates role (.bool s) (.bool s') true
  | float (hs : s.get role = none) (hfill : s.Fills role ys s') :
      Decorates role (.float s) (.float s') true
  | str (hs : s.get role = none) (hfill : s.Fills role ys s') :
      Decorates role (.str alphabet s) (.str alphabet s') true
  | collection (hs : s.get role = none) (hfill : s.Fills role ys s')
      (hitem : Decorates role item item' complete) :
      Decorates role (.collection c s item) (.collection c s' item') complete
  | dictKey (hs : s.get role = none) (hfill : s.Fills role ys s')
      (hkey : Decorates role key key' false) :
      Decorates role (.dict s key value) (.dict s' key' value) false
  | dictValue (hs : s.get role = none) (hfill : s.Fills role ys s')
      (hkey : Decorates role key key' true) (hvalue : Decorates role value value' complete) :
      Decorates role (.dict s key value) (.dict s' key' value') complete

namespace Decorates

variable {role other : Role} {tree tree' : TypeTree} {complete : Bool}

theorem refused_or_root_free (h : Decorates role tree tree' complete) :
    (tree' = tree ∧ complete = false) ∨ (tree.domains role).filled.head? = some false := by
  cases h with
  | refused => exact .inl ⟨rfl, rfl⟩
  | int hs | bool hs | float hs | str hs | collection hs | dictKey hs | dictValue hs =>
      refine .inr ?_
      simp [Tree.domains, Tree.map, Tree.filled, hs]

theorem eq_or_root_filled (h : Decorates role tree tree' complete) :
    tree' = tree ∨ tree'.RootFilled role := by
  cases h with
  | refused => exact .inl rfl
  | int _ hfill | bool _ hfill | float _ hfill | str _ hfill | collection _ hfill _
  | dictKey _ hfill _ | dictValue _ hfill _ _ =>
      obtain ⟨d, _, hd⟩ := hfill.exists_get
      refine .inr ?_
      simp [Tree.RootFilled, Tree.domains, Tree.map, Tree.filled, hd]

theorem keeps (h : Decorates role tree tree' complete) : tree.Keeps tree' := by
  induction h with
  | @refused tree => exact .refl tree
  | int hs hfill => exact .int (hfill.keeps hs)
  | bool hs hfill => exact .bool (hfill.keeps hs)
  | float hs hfill => exact .float (hfill.keeps hs)
  | str hs hfill => exact .str (hfill.keeps hs)
  | collection hs hfill _ ih => exact .collection (hfill.keeps hs) ih
  | dictKey hs hfill _ ih => exact .dict (hfill.keeps hs) ih (.refl _)
  | dictValue hs hfill _ _ ihk ihv => exact .dict (hfill.keeps hs) ihk ihv

theorem domains_of_ne (h : Decorates role tree tree' complete) (hne : other ≠ role) :
    tree'.domains other = tree.domains other := by
  induction h with
  | refused => rfl
  | int _ hfill => exact congrArg Tree.int (hfill.get_of_ne hne)
  | bool _ hfill => exact congrArg Tree.bool (hfill.get_of_ne hne)
  | float _ hfill => exact congrArg Tree.float (hfill.get_of_ne hne)
  | str _ hfill => exact congrArg (Tree.str _) (hfill.get_of_ne hne)
  | collection _ hfill _ ih => simp only [Tree.domains_collection, hfill.get_of_ne hne, ih]
  | dictKey _ hfill _ ih => simp only [Tree.domains_dict, hfill.get_of_ne hne, ih]
  | dictValue _ hfill _ _ ihk ihv =>
      simp only [Tree.domains_dict, hfill.get_of_ne hne, ihk, ihv]

-- Only an empty slot is ever filled, so a decoration that goes through met none that was not.
theorem all_filled (h : Decorates role tree tree' complete) (hcomplete : complete = true) :
    false ∉ (tree'.domains role).filled := by
  induction h with
  | refused => cases hcomplete
  | int _ hfill | bool _ hfill | float _ hfill | str _ hfill =>
      obtain ⟨d, _, hd⟩ := hfill.exists_get
      simp [Tree.domains, Tree.map, Tree.filled, hd]
  | collection _ hfill _ ih =>
      obtain ⟨d, _, hd⟩ := hfill.exists_get
      simpa [Tree.domains_collection, Tree.filled, hd] using ih hcomplete
  | dictKey => cases hcomplete
  | dictValue _ hfill _ _ ihk ihv =>
      obtain ⟨d, _, hd⟩ := hfill.exists_get
      simpa [Tree.domains_dict, Tree.filled, hd] using ⟨ihk rfl, ihv hcomplete⟩

theorem gap (h : Decorates role tree tree' complete) (htree : tree.Unfilled role)
    (hcomplete : complete = false) : false ∈ (tree'.domains role).filled := by
  induction h with
  | refused => exact Tree.false_mem_filled_of_unfilled htree
  | int | bool | float | str => cases hcomplete
  | collection _ _ _ ih =>
      rw [Tree.domains_collection, Tree.filled]
      exact List.mem_cons_of_mem _ (ih htree.2 hcomplete)
  | dictKey _ _ _ ih =>
      rw [Tree.domains_dict, Tree.filled]
      exact List.mem_cons_of_mem _ (List.mem_append_left _ (ih htree.2.1 rfl))
  | dictValue _ _ _ _ _ ihv =>
      rw [Tree.domains_dict, Tree.filled]
      exact List.mem_cons_of_mem _ (List.mem_append_right _ (ihv htree.2.2 hcomplete))

-- A tree without domains for the role gets them from the root on, up to where the decoration stops.
theorem filledFirst (h : Decorates role tree tree' complete) (htree : tree.Unfilled role) :
    FilledFirst (tree'.domains role).filled := by
  induction h with
  | refused => exact .of_none (Tree.unfilled_iff.mp htree)
  | int _ hfill | bool _ hfill | float _ hfill | str _ hfill =>
      simp [Tree.domains, Tree.map, Tree.filled, FilledFirst]
  | collection _ hfill _ ih =>
      obtain ⟨d, _, hd⟩ := hfill.exists_get
      simp only [Tree.domains_collection, Tree.filled, hd, Option.isSome_some]
      exact (ih htree.2).cons_true
  | dictKey _ hfill _ ih =>
      obtain ⟨d, _, hd⟩ := hfill.exists_get
      simp only [Tree.domains_dict, Tree.filled, hd, Option.isSome_some]
      exact ((ih htree.2.1).append_of_none (Tree.unfilled_iff.mp htree.2.2)).cons_true
  | dictValue _ hfill hkey _ _ ihv =>
      obtain ⟨d, _, hd⟩ := hfill.exists_get
      simp only [Tree.domains_dict, Tree.filled, hd, Option.isSome_some]
      exact (FilledFirst.append_of_all (hkey.all_filled rfl) (ihv htree.2.2)).cons_true

end Decorates

namespace Clause

variable {role : Role} {tree' : TypeTree} {outcome : Read (List Item)}

theorem align_decorates {tree : TypeTree} {items : List Item}
    (h : align role tree items = (tree', outcome)) :
    Decorates role tree tree' outcome.isOk := by
  induction tree generalizing items tree' outcome with
  | int s =>
      unfold align at h
      split at h <;> cases h
      next hfill =>
        obtain ⟨_, _, _, _, hs, hfills⟩ := fill_eq_ok.mp hfill
        exact .int hs hfills
      next => exact .refused
  | bool s =>
      unfold align at h
      split at h <;> cases h
      next hfill =>
        obtain ⟨_, _, _, _, hs, hfills⟩ := fill_eq_ok.mp hfill
        exact .bool hs hfills
      next => exact .refused
  | float s =>
      unfold align at h
      split at h <;> cases h
      next hfill =>
        obtain ⟨_, _, _, _, hs, hfills⟩ := fill_eq_ok.mp hfill
        exact .float hs hfills
      next => exact .refused
  | str alphabet s =>
      unfold align at h
      split at h <;> cases h
      next hfill =>
        obtain ⟨_, _, _, _, hs, hfills⟩ := fill_eq_ok.mp hfill
        exact .str hs hfills
      next => exact .refused
  | collection c s item ih =>
      unfold align at h
      split at h
      next =>
        cases h
        exact .refused
      next hfill =>
        obtain ⟨_, _, _, _, hs, hfills⟩ := fill_eq_ok.mp hfill
        split at h
        next =>
          cases h
          exact .collection hs hfills .refused
        next =>
          cases h
          exact .collection hs hfills (ih rfl)
  | dict s key value ihk ihv =>
      unfold align at h
      split at h
      next =>
        cases h
        exact .refused
      next hfill =>
        obtain ⟨_, _, _, _, hs, hfills⟩ := fill_eq_ok.mp hfill
        split at h
        next =>
          cases h
          exact .dictKey hs hfills .refused
        next =>
          split at h
          next halign =>
            cases h
            exact .dictKey hs hfills (ihk halign)
          next halign =>
            have hkey := ihk halign
            split at h
            next =>
              cases h
              exact .dictValue hs hfills hkey .refused
            next =>
              cases h
              exact .dictValue hs hfills hkey (ihv rfl)

end Clause

end CallSuite
