import CallSuite.Proofs.Clause.Separation

namespace CallSuite

-- Slots in which nothing but the domain of one role may be.
def Slots.ofSlot (role : Role) (d : Slot α) : Slots α :=
  match role with
  | .exhaustive => ⟨d, none⟩
  | .random => ⟨none, d⟩

def Slots.only (role : Role) (s : Slots α) : Slots α := ofSlot role (s.get role)

-- The type with the domains of one role alone.
def Tree.only (role : Role) (tree : TypeTree) : TypeTree := tree.map fun s => s.only role

@[simp] theorem Slots.get_only (s : Slots α) (role : Role) :
    (s.only role).get role = s.get role := by
  cases role <;> rfl

theorem Tree.domains_only (tree : TypeTree) (role : Role) :
    (tree.only role).domains role = tree.domains role := by
  simp only [only, domains, map_map, Slots.get_only]

theorem Tree.only_eq_of_domains_eq {tree tree' : TypeTree} {role : Role}
    (h : tree.domains role = tree'.domains role) : tree.only role = tree'.only role := by
  have hslots (tree : TypeTree) : tree.only role = (tree.domains role).map (Slots.ofSlot role) := by
    rw [domains, map_map]
    rfl
  rw [hslots, hslots, h]

theorem Slots.assign_only (s : Slots α) (role : Role) (xs : List α) :
    (s.only role).assign role xs = Slots.only role <$> s.assign role xs := by
  unfold Slots.assign
  cases Domain.ofList? xs with
  | none => rfl
  | some d => cases role with
    | exhaustive =>
        simp only [Slots.only, Slots.ofSlot, Slots.get]
        cases s.exhaustive <;> rfl
    | random =>
        simp only [Slots.only, Slots.ofSlot, Slots.get]
        cases s.random <;> rfl

namespace Clause

variable {role : Role} {items : List Item}

theorem fill_only {kind : Kind} {entries : List Binary64 → Except DomainFault (List α)}
    (s : Slots α) : fill role kind entries (s.only role) items =
      (fun r => (r.1.only role, r.2)) <$> fill role kind entries s items := by
  cases items with
  | nil => rfl
  | cons item rest => cases item with
    | delim c => rfl
    | number w => rfl
    | values xs =>
        simp only [fill, Slots.assign_only]
        cases entries xs with
        | error e => rfl
        | ok ys =>
            simp only [Except.mapError, bind, Except.bind]
            cases s.assign role ys <;> rfl

-- The domains of the other role make no difference: with or without them the same nodes are
-- filled with the same entries, and the same error is met.
theorem align_only (tree : TypeTree) (items : List Item) :
    align role (tree.only role) items =
      ((align role tree items).1.only role, (align role tree items).2) := by
  induction tree generalizing items with
  | int s | bool s =>
      simp only [Tree.only, Tree.map, align, fillDistinct, fill_only]
      cases fill role _ _ s items <;> rfl
  | float s =>
      simp only [Tree.only, Tree.map, align, fill_only]
      cases fill role _ _ s items <;> rfl
  | str alphabet s =>
      simp only [Tree.only, Tree.map, align, fillSizes, fillDistinct, fill_only]
      cases fill role _ _ s items <;> rfl
  | collection c s item ih =>
      simp only [Tree.only, Tree.map, align, fillSizes, fillDistinct, fill_only] at ih ⊢
      cases fill role _ _ s items with
      | error e => rfl
      | ok filled =>
          simp only [Functor.map, Except.map]
          cases takeDelim '(' filled.2 with
          | error e => rfl
          | ok rest => simp only [ih, Tree.map]
  | dict s key value ihk ihv =>
      simp only [Tree.only, Tree.map, align, fillSizes, fillDistinct, fill_only] at ihk ihv ⊢
      cases fill role _ _ s items with
      | error e => rfl
      | ok filled =>
          simp only [Functor.map, Except.map]
          cases takeDelim '(' filled.2 with
          | error e => rfl
          | ok rest =>
              simp only [ihk]
              rcases align role key rest with ⟨key', outcome⟩
              cases outcome with
              | error e => rfl
              | ok rest =>
                  simp only
                  cases takeDelim ':' rest with
                  | error e => rfl
                  | ok rest => simp only [ihv, Tree.map]

end Clause

namespace TypeTree

theorem decorate_only (tree : TypeTree) (role : Role) (text : String) :
    decorate (tree.only role) role text =
      ((tree.decorate role text).1.only role, (tree.decorate role text).2) := by
  unfold decorate
  dsimp only
  split
  next => rfl
  next items _ => rw [Clause.align_only]

-- What a decoration leaves for its role comes from what was there for it.
theorem domains_decorate_congr {role : Role} {tree tree' : TypeTree}
    (h : tree.domains role = tree'.domains role) (text : String) :
    (tree.decorate role text).1.domains role = (tree'.decorate role text).1.domains role := by
  have honly (tree : TypeTree) : (tree.decorate role text).1.domains role =
      ((tree.only role).decorate role text).1.domains role := by
    rw [decorate_only, Tree.domains_only]
  rw [honly tree, honly tree', Tree.only_eq_of_domains_eq h]

end TypeTree

end CallSuite
