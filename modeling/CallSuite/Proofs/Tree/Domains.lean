import CallSuite.Proofs.Scanning
import CallSuite.Proofs.Tree.Slots
import CallSuite.Tree.Sealed

namespace CallSuite

namespace Tree

variable {δ ε ζ : Type → Type}

def map (f : {α : Type} → δ α → ε α) : Tree δ → Tree ε
  | .int s => .int (f s)
  | .bool s => .bool (f s)
  | .float s => .float (f s)
  | .str alphabet s => .str alphabet (f s)
  | .collection c s item => .collection c (f s) (item.map f)
  | .dict s key value => .dict (f s) (key.map f) (value.map f)

theorem map_map (f : {α : Type} → δ α → ε α) (g : {α : Type} → ε α → ζ α) (tree : Tree δ) :
    (tree.map f).map g = tree.map fun s => g (f s) := by
  induction tree with
  | int s | bool s | float s | str alphabet s => rfl
  | collection c s item ih => simp only [map, ih]
  | dict s key value ihk ihv => simp only [map, ihk, ihv]

theorem map_injective {f : {α : Type} → δ α → ε α}
    (hf : ∀ {α : Type} {s s' : δ α}, f s = f s' → s = s') {tree tree' : Tree δ}
    (h : tree.map f = tree'.map f) : tree = tree' := by
  induction tree generalizing tree' with
  | int s | bool s | float s =>
      cases tree' <;> simp only [map, reduceCtorEq, int.injEq, bool.injEq, float.injEq] at h
      rw [hf h]
  | str alphabet s =>
      cases tree' <;> simp only [map, reduceCtorEq, str.injEq] at h
      obtain ⟨rfl, hs⟩ := h
      rw [hf hs]
  | collection c s item ih =>
      cases tree' <;> simp only [map, reduceCtorEq, collection.injEq] at h
      obtain ⟨rfl, hs, hitem⟩ := h
      rw [hf hs, ih hitem]
  | dict s key value ihk ihv =>
      cases tree' <;> simp only [map, reduceCtorEq, dict.injEq] at h
      obtain ⟨hs, hkey, hvalue⟩ := h
      rw [hf hs, ihk hkey, ihv hvalue]

-- What the nodes hold is as it should be, where each type of entry has a condition of its own.
def All (int : δ Int → Prop) (bool : δ Bool → Prop) (float : δ Binary64 → Prop)
    (size : δ Nat → Prop) : Tree δ → Prop
  | .int s => int s
  | .bool s => bool s
  | .float s => float s
  | .str _ s => size s
  | .collection _ s item => size s ∧ item.All int bool float size
  | .dict s key value => size s ∧ key.All int bool float size ∧ value.All int bool float size

theorem all_map {int : ε Int → Prop} {bool : ε Bool → Prop} {float : ε Binary64 → Prop}
    {size : ε Nat → Prop} (f : {α : Type} → δ α → ε α) (tree : Tree δ) :
    (tree.map f).All int bool float size ↔
      tree.All (fun s => int (f s)) (fun s => bool (f s)) (fun s => float (f s))
        (fun s => size (f s)) := by
  induction tree with
  | int s | bool s | float s | str alphabet s => rfl
  | collection c s item ih => simp only [map, All, ih]
  | dict s key value ihk ihv => simp only [map, All, ihk, ihv]

-- The alphabets of the strings of a type.
def alphabets : Tree δ → List (OrderedSet Char)
  | .int _ | .bool _ | .float _ => []
  | .str alphabet _ => [alphabet]
  | .collection _ _ item => item.alphabets
  | .dict _ key value => key.alphabets ++ value.alphabets

theorem alphabets_map (f : {α : Type} → δ α → ε α) (tree : Tree δ) :
    (tree.map f).alphabets = tree.alphabets := by
  induction tree with
  | int s | bool s | float s | str alphabet s => rfl
  | collection c s item ih => exact ih
  | dict s key value ihk ihv => simp only [map, alphabets, ihk, ihv]

end Tree

-- A domain that a node may still have to get.
abbrev Slot (α : Type) := Option (Domain α)

-- Which nodes have got their domain, each node in front of its children and a key in front of its
-- value.
def Tree.filled : Tree Slot → List Bool
  | .int s => [s.isSome]
  | .bool s => [s.isSome]
  | .float s => [s.isSome]
  | .str _ s => [s.isSome]
  | .collection _ s item => s.isSome :: item.filled
  | .dict s key value => s.isSome :: (key.filled ++ value.filled)

theorem Tree.not_mem_filled_of_map_some {δ : Type → Type} (f : {α : Type} → δ α → Domain α)
    (tree : Tree δ) : false ∉ (tree.map fun s => (some (f s) : Slot _)).filled := by
  induction tree with
  | int s | bool s | float s | str alphabet s => simp [map, filled]
  | collection c s item ih => simp [map, filled, ih]
  | dict s key value ihk ihv => simp [map, filled, ihk, ihv]

-- The domains of one role.
def Tree.domains (tree : TypeTree) (role : Role) : Tree Slot := tree.map fun s => s.get role

namespace Tree

variable {role : Role} {sizes : Slots Nat} {item key value : TypeTree}

theorem domains_collection {c : Collection} : (collection c sizes item).domains role =
    .collection c (sizes.get role) (item.domains role) := rfl

theorem domains_dict : (dict sizes key value).domains role =
    .dict (sizes.get role) (key.domains role) (value.domains role) := rfl

theorem unfilled_iff {tree : TypeTree} :
    tree.Unfilled role ↔ true ∉ (tree.domains role).filled := by
  induction tree with
  | int s | bool s | float s | str alphabet s => simp [Unfilled, domains, map, filled]
  | collection c s item ih => simp [Unfilled, domains_collection, filled, ih]
  | dict s key value ihk ihv => simp [Unfilled, domains_dict, filled, ihk, ihv]

theorem false_mem_filled_of_unfilled {tree : TypeTree} (h : tree.Unfilled role) :
    false ∈ (tree.domains role).filled := by
  cases tree with
  | int s | bool s | float s | str alphabet s =>
      have hs : s.get role = none := h
      simp [domains, map, filled, hs]
  | collection c s item | dict s key value =>
      have hs : s.get role = none := h.1
      simp [domains, map, filled, hs]

end Tree

def Domains.get (d : Domains α) : Role → Domain α
  | .exhaustive => d.exhaustive
  | .random => d.random

namespace Slots

def ofDomains (d : Domains α) : Slots α := ⟨some d.exhaustive, some d.random⟩

@[simp] theorem get_ofDomains (d : Domains α) (role : Role) :
    (ofDomains d).get role = some (d.get role) := by
  cases role <;> rfl

theorem ext_get {s s' : Slots α} (h : ∀ role, s.get role = s'.get role) : s = s' := by
  obtain ⟨exhaustive, random⟩ := s
  obtain ⟨exhaustive', random'⟩ := s'
  obtain rfl : exhaustive = exhaustive' := h .exhaustive
  obtain rfl : random = random' := h .random
  rfl

theorem seal_eq_ok {s : Slots α} {kind : Kind} {d : Domains α} :
    s.seal kind = .ok d ↔ s = ofDomains d := by
  obtain ⟨exhaustive, random⟩ := s
  obtain ⟨d, d'⟩ := d
  cases exhaustive <;> cases random <;> simp [Slots.seal, ofDomains]

theorem exists_ofDomains {s : Slots α} (h : ∀ role, s.get role ≠ none) :
    ∃ d, s = ofDomains d := by
  obtain ⟨d, hd⟩ := Option.ne_none_iff_exists'.mp (h .exhaustive)
  obtain ⟨d', hd'⟩ := Option.ne_none_iff_exists'.mp (h .random)
  obtain ⟨exhaustive, random⟩ := s
  obtain rfl : exhaustive = some d := hd
  obtain rfl : random = some d' := hd'
  exact ⟨⟨d, d'⟩, rfl⟩

end Slots

-- A tree is no more than its type with the domains of each role.
theorem Tree.ext_domains {tree tree' : TypeTree}
    (h : ∀ role, tree.domains role = tree'.domains role) : tree = tree' := by
  have hexhaustive := h .exhaustive
  simp only [domains] at h hexhaustive
  induction tree generalizing tree' with
  | int s | bool s | float s =>
      cases tree' <;> simp only [map, reduceCtorEq] at hexhaustive
      simp only [map, int.injEq, bool.injEq, float.injEq] at h
      rw [Slots.ext_get h]
  | str alphabet s =>
      cases tree' <;> simp only [map, reduceCtorEq, str.injEq] at hexhaustive
      simp only [map, str.injEq] at h
      rw [hexhaustive.1, Slots.ext_get fun role => (h role).2]
  | collection c s item ih =>
      cases tree' <;> simp only [map, reduceCtorEq, collection.injEq] at hexhaustive
      simp only [map, collection.injEq] at h
      rw [hexhaustive.1, Slots.ext_get fun role => (h role).2.1,
        ih (fun role => (h role).2.2) hexhaustive.2.2]
  | dict s key value ihk ihv =>
      cases tree' <;> simp only [map, reduceCtorEq, dict.injEq] at hexhaustive
      simp only [map, dict.injEq] at h
      rw [Slots.ext_get fun role => (h role).1, ihk (fun role => (h role).2.1) hexhaustive.2.1,
        ihv (fun role => (h role).2.2) hexhaustive.2.2]

-- A tree is sealed by taking the domains out of the slots, so nothing but a full tree can be.
theorem Tree.seal_eq_ok {tree : TypeTree} {node : Node} :
    tree.seal = .ok node ↔ tree = node.map Slots.ofDomains := by
  induction tree generalizing node with
  | int s | bool s | float s | str alphabet s =>
      simp only [Tree.seal, map_eq_ok, Slots.seal_eq_ok]
      constructor
      · rintro ⟨d, rfl, rfl⟩
        rfl
      · intro h
        cases node <;> cases h
        exact ⟨_, rfl, rfl⟩
  | collection c s item ih =>
      simp only [Tree.seal, bind_eq_ok, Slots.seal_eq_ok, ih, pure, Except.pure, Except.ok.injEq]
      constructor
      · rintro ⟨d, rfl, item, rfl, rfl⟩
        rfl
      · intro h
        cases node <;> cases h
        exact ⟨_, rfl, _, rfl, rfl⟩
  | dict s key value ihk ihv =>
      simp only [Tree.seal, bind_eq_ok, Slots.seal_eq_ok, ihk, ihv, pure, Except.pure,
        Except.ok.injEq]
      constructor
      · rintro ⟨d, rfl, key, rfl, value, rfl, rfl⟩
        rfl
      · intro h
        cases node <;> cases h
        exact ⟨_, rfl, _, rfl, _, rfl, rfl⟩

theorem Tree.exists_seal {tree : TypeTree}
    (h : ∀ role, false ∉ (tree.domains role).filled) : ∃ node, tree.seal = .ok node := by
  simp only [seal_eq_ok]
  induction tree with
  | int s =>
      have hs : ∀ role, s.get role ≠ none := by simpa [domains, map, filled] using h
      obtain ⟨d, rfl⟩ := Slots.exists_ofDomains hs
      exact ⟨.int d, rfl⟩
  | bool s =>
      have hs : ∀ role, s.get role ≠ none := by simpa [domains, map, filled] using h
      obtain ⟨d, rfl⟩ := Slots.exists_ofDomains hs
      exact ⟨.bool d, rfl⟩
  | float s =>
      have hs : ∀ role, s.get role ≠ none := by simpa [domains, map, filled] using h
      obtain ⟨d, rfl⟩ := Slots.exists_ofDomains hs
      exact ⟨.float d, rfl⟩
  | str alphabet s =>
      have hs : ∀ role, s.get role ≠ none := by simpa [domains, map, filled] using h
      obtain ⟨d, rfl⟩ := Slots.exists_ofDomains hs
      exact ⟨.str alphabet d, rfl⟩
  | collection c s item ih =>
      simp only [domains_collection, filled, List.mem_cons, not_or] at h
      have hs : ∀ role, s.get role ≠ none := fun role => by simpa using (h role).1
      obtain ⟨d, rfl⟩ := Slots.exists_ofDomains hs
      obtain ⟨item, rfl⟩ := ih fun role => (h role).2
      exact ⟨.collection c d item, rfl⟩
  | dict s key value ihk ihv =>
      simp only [domains_dict, filled, List.mem_cons, List.mem_append, not_or] at h
      have hs : ∀ role, s.get role ≠ none := fun role => by simpa using (h role).1
      obtain ⟨d, rfl⟩ := Slots.exists_ofDomains hs
      obtain ⟨key, rfl⟩ := ihk fun role => (h role).2.1
      obtain ⟨value, rfl⟩ := ihv fun role => (h role).2.2
      exact ⟨.dict d key value, rfl⟩

theorem Tree.domains_of_seal {tree : TypeTree} {node : Node} (h : tree.seal = .ok node)
    (role : Role) : tree.domains role = node.map fun d => (some (d.get role) : Slot _) := by
  rw [seal_eq_ok.mp h, domains, map_map]
  simp only [Slots.get_ofDomains]

end CallSuite
