import CallSuite.Proofs.Tree.Domains

namespace CallSuite

-- A slot that is filled stays as it is.
def Slots.Keeps (s s' : Slots α) : Prop := ∀ role d, s.get role = some d → s'.get role = some d

-- The same type in which no domain was lost or changed.
inductive Tree.Keeps : TypeTree → TypeTree → Prop where
  | int (h : s.Keeps s') : Keeps (.int s) (.int s')
  | bool (h : s.Keeps s') : Keeps (.bool s) (.bool s')
  | float (h : s.Keeps s') : Keeps (.float s) (.float s')
  | str (h : s.Keeps s') : Keeps (.str alphabet s) (.str alphabet s')
  | collection (h : s.Keeps s') (hitem : Keeps item item') :
      Keeps (.collection c s item) (.collection c s' item')
  | dict (h : s.Keeps s') (hkey : Keeps key key') (hvalue : Keeps value value') :
      Keeps (.dict s key value) (.dict s' key' value')

-- The kinds and alphabets of a tree without its domains.
def Tree.shape (tree : Tree δ) : Tree fun _ => Unit := tree.map fun _ => ()

-- No node that is filled comes after one that is not.
def FilledFirst (filled : List Bool) : Prop :=
  filled.Pairwise fun before after => after = true → before = true

def Tree.RootFilled (role : Role) (tree : TypeTree) : Prop :=
  (tree.domains role).filled.head? = some true

section Keeps

variable {s s' s'' : Slots α} {tree tree' tree'' : TypeTree} {role : Role}

theorem Slots.Keeps.refl (s : Slots α) : s.Keeps s := fun _ _ h => h

theorem Slots.Keeps.trans (h : s.Keeps s') (h' : s'.Keeps s'') : s.Keeps s'' :=
  fun role d hd => h' role d (h role d hd)

theorem Slots.Fills.keeps (hs : s.get role = none) (h : s.Fills role xs s') : s.Keeps s' := by
  intro other d hd
  have hne : other ≠ role := by
    rintro rfl
    rw [hs] at hd
    cases hd
  rw [h.get_of_ne hne, hd]

theorem Tree.Keeps.refl (tree : TypeTree) : tree.Keeps tree := by
  induction tree with
  | int s => exact .int (.refl s)
  | bool s => exact .bool (.refl s)
  | float s => exact .float (.refl s)
  | str alphabet s => exact .str (.refl s)
  | collection c s item ih => exact .collection (.refl s) ih
  | dict s key value ihk ihv => exact .dict (.refl s) ihk ihv

theorem Tree.Keeps.trans (h : tree.Keeps tree') (h' : tree'.Keeps tree'') : tree.Keeps tree'' := by
  induction h generalizing tree'' with
  | int h => cases h' with
    | int h' => exact .int (h.trans h')
  | bool h => cases h' with
    | bool h' => exact .bool (h.trans h')
  | float h => cases h' with
    | float h' => exact .float (h.trans h')
  | str h => cases h' with
    | str h' => exact .str (h.trans h')
  | collection h _ ih => cases h' with
    | collection h' hitem => exact .collection (h.trans h') (ih hitem)
  | dict h _ _ ihk ihv => cases h' with
    | dict h' hkey hvalue => exact .dict (h.trans h') (ihk hkey) (ihv hvalue)

theorem Tree.Keeps.shape_eq (h : tree.Keeps tree') : tree'.shape = tree.shape := by
  induction h with
  | int | bool | float | str => rfl
  | collection _ _ ih =>
      simp only [Tree.shape, Tree.map] at ih ⊢
      rw [ih]
  | dict _ _ _ ihk ihv =>
      simp only [Tree.shape, Tree.map] at ihk ihv ⊢
      rw [ihk, ihv]

theorem Slots.Keeps.isSome_get (h : s.Keeps s') (hs : (s.get role).isSome) :
    (s'.get role).isSome := by
  obtain ⟨d, hd⟩ := Option.isSome_iff_exists.mp hs
  rw [h role d hd]
  rfl

theorem Tree.Keeps.rootFilled (h : tree.Keeps tree') (hroot : tree.RootFilled role) :
    tree'.RootFilled role := by
  cases h with
  | int h | bool h | float h | str h | collection h _ | dict h _ _ =>
      exact congrArg some (h.isSome_get (Option.some.inj hroot))

end Keeps

namespace FilledFirst

variable {filled filled' : List Bool}

theorem of_none (h : true ∉ filled) : FilledFirst filled :=
  List.pairwise_of_forall_mem_list fun _ _ _ hmem hafter => absurd (hafter ▸ hmem) h

theorem cons_true (h : FilledFirst filled) : FilledFirst (true :: filled) :=
  List.pairwise_cons.mpr ⟨fun _ _ _ => rfl, h⟩

-- Where the root is not filled no node is.
theorem none_of_head (h : FilledFirst filled) (hhead : filled.head? = some false) :
    true ∉ filled := by
  cases filled with
  | nil => simp
  | cons root rest =>
      obtain rfl : root = false := Option.some.inj hhead
      have hrest := (List.pairwise_cons.mp h).1
      simp only [List.mem_cons, Bool.true_eq_false, false_or]
      exact fun hmem => absurd (hrest true hmem rfl) (by simp)

theorem append_of_all (h : false ∉ filled) (h' : FilledFirst filled') :
    FilledFirst (filled ++ filled') := by
  have hall : ∀ before ∈ filled, before = true := by
    intro before hmem
    cases before with
    | true => rfl
    | false => exact absurd hmem h
  refine List.pairwise_append.mpr ⟨?_, h', fun before hbefore _ _ _ => hall before hbefore⟩
  exact List.pairwise_of_forall_mem_list fun before hbefore _ _ _ => hall before hbefore

theorem append_of_none (h : FilledFirst filled) (h' : true ∉ filled') :
    FilledFirst (filled ++ filled') :=
  List.pairwise_append.mpr ⟨h, of_none h', fun _ _ _ hmem hafter => absurd (hafter ▸ hmem) h'⟩

end FilledFirst

end CallSuite
