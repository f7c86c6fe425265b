import CallSuite.Tree.Basic

namespace CallSuite

def Domain.cons (x : α) (xs : List α) : Domain α := ⟨(x :: xs).toArray, Nat.succ_pos _⟩

theorem Domain.toList_ne_nil (d : Domain α) : d.toList ≠ [] := by
  have hpos := d.size_pos
  rw [← Array.length_toList] at hpos
  exact List.ne_nil_of_length_pos hpos

-- No node of the tree has a domain for the role yet.
def Tree.Unfilled (role : Role) : TypeTree → Prop
  | .int s => s.get role = none
  | .bool s => s.get role = none
  | .float s => s.get role = none
  | .str _ s => s.get role = none
  | .collection _ s item => s.get role = none ∧ item.Unfilled role
  | .dict s key value => s.get role = none ∧ key.Unfilled role ∧ value.Unfilled role

namespace Slots

@[simp] theorem get_empty (role : Role) : (empty : Slots α).get role = none := by
  cases role <;> rfl

-- The slot of the role gets these entries, and the other one stays as it is.
def Fills (s : Slots α) (role : Role) (xs : List α) (s' : Slots α) : Prop :=
  ∃ d : Domain α, d.toList = xs ∧ s' = s.set d role

theorem exists_fills (s : Slots α) (role : Role) {xs : List α} (hxs : xs ≠ []) :
    ∃ s', s.Fills role xs s' :=
  ⟨_, ⟨xs.toArray, by simpa using List.length_pos_iff.mpr hxs⟩, by simp [Domain.toList], rfl⟩

theorem assign_eq_ok {s s' : Slots α} {role : Role} {xs : List α} :
    s.assign role xs = .ok s' ↔ s.get role = none ∧ s.Fills role xs s' := by
  constructor
  · intro h
    unfold assign at h
    split at h <;> try cases h
    next d hd =>
      split at h <;> cases h
      next hget =>
        unfold Domain.ofList? at hd
        split at hd <;> cases hd
        exact ⟨hget, _, List.toList_toArray, rfl⟩
  · rintro ⟨hget, d, rfl, rfl⟩
    have hd : Domain.ofList? d.toList = some d := by
      simp [Domain.ofList?, Domain.toList, d.size_pos]
    simp only [assign, hd, hget]

section Fills

variable {s s' : Slots α} {role other : Role} {xs : List α}

theorem Fills.get_of_ne (h : s.Fills role xs s') (hne : other ≠ role) :
    s'.get other = s.get other := by
  obtain ⟨d, _, rfl⟩ := h
  cases role <;> cases other <;> first | rfl | exact absurd rfl hne

theorem Fills.exists_get (h : s.Fills role xs s') : ∃ d, d.toList = xs ∧ s'.get role = some d := by
  obtain ⟨d, hd, rfl⟩ := h
  refine ⟨d, hd, ?_⟩
  cases role <;> rfl

end Fills

end Slots

end CallSuite
