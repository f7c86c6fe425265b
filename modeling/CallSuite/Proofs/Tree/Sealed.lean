import CallSuite.Proofs.Tree.Keeps

namespace CallSuite

-- What sealing looks at in a node: its kind, and which of its slots are filled.
structure NodeSlots where
  kind : Kind
  filled : Role → Bool

namespace NodeSlots

def Full (node : NodeSlots) : Prop := ∀ role, node.filled role

-- A node without any domain is reported for the exhaustive one.
def gap (node : NodeSlots) : SealError :=
  ⟨node.kind, if node.filled .exhaustive then .random else .exhaustive⟩

-- The report of the first node that is not full.
def FirstGap (nodes : List NodeSlots) (e : SealError) : Prop :=
  ∃ before node after, nodes = before ++ node :: after ∧ (∀ n ∈ before, n.Full) ∧
    ¬ node.Full ∧ node.gap = e

section FirstGap

variable {node : NodeSlots} {nodes others : List NodeSlots} {e : SealError}

theorem not_firstGap_nil : ¬ FirstGap [] e := by
  rintro ⟨before, node, after, heq, _⟩
  simp at heq

theorem firstGap_cons : FirstGap (node :: nodes) e ↔
    (¬ node.Full ∧ node.gap = e) ∨ node.Full ∧ FirstGap nodes e := by
  constructor
  · rintro ⟨before, found, after, heq, hbefore, hfound⟩
    cases before with
    | nil =>
        obtain ⟨rfl, _⟩ := List.cons.inj heq
        exact .inl hfound
    | cons first before =>
        obtain ⟨rfl, rfl⟩ := List.cons.inj heq
        obtain ⟨hfirst, hbefore⟩ := List.forall_mem_cons.mp hbefore
        exact .inr ⟨hfirst, before, found, after, rfl, hbefore, hfound⟩
  · rintro (hnode | ⟨hfull, before, found, after, rfl, hbefore, hfound⟩)
    · exact ⟨[], node, nodes, rfl, by simp, hnode⟩
    · exact ⟨node :: before, found, after, rfl, List.forall_mem_cons.mpr ⟨hfull, hbefore⟩, hfound⟩

theorem firstGap_singleton : FirstGap [node] e ↔ ¬ node.Full ∧ node.gap = e := by
  simp [firstGap_cons, not_firstGap_nil]

theorem firstGap_append : FirstGap (nodes ++ others) e ↔
    FirstGap nodes e ∨ (∀ n ∈ nodes, n.Full) ∧ FirstGap others e := by
  induction nodes with
  | nil => simp [not_firstGap_nil]
  | cons node nodes ih =>
      rw [List.cons_append, firstGap_cons, firstGap_cons, ih, List.forall_mem_cons]
      grind

end FirstGap

end NodeSlots

open NodeSlots

def Slots.node (s : Slots α) (kind : Kind) : NodeSlots := ⟨kind, fun role => (s.get role).isSome⟩

-- The nodes of a tree in pre-order: each stands in front of its children, and the key of a dict in
-- front of its value.
def Tree.nodes : TypeTree → List NodeSlots
  | .int s => [s.node .int]
  | .bool s => [s.node .bool]
  | .float s => [s.node .float]
  | .str _ s => [s.node .str]
  | .collection c s item => s.node (.collection c) :: item.nodes
  | .dict s key value => s.node .dict :: (key.nodes ++ value.nodes)

namespace Slots

variable {s : Slots α} {kind : Kind} {e : SealError}

theorem full_node_iff : (s.node kind).Full ↔ s.exhaustive.isSome ∧ s.random.isSome := by
  constructor
  · exact fun h => ⟨h .exhaustive, h .random⟩
  · rintro ⟨hexhaustive, hrandom⟩ role
    cases role with
    | exhaustive => exact hexhaustive
    | random => exact hrandom

theorem exists_seal_eq_ok : (∃ d, s.seal kind = .ok d) ↔ (s.node kind).Full := by
  rw [full_node_iff]
  obtain ⟨exhaustive, random⟩ := s
  cases exhaustive <;> cases random <;> simp [Slots.seal]

theorem seal_eq_error : s.seal kind = .error e ↔ ¬ (s.node kind).Full ∧ (s.node kind).gap = e := by
  rw [full_node_iff]
  obtain ⟨exhaustive, random⟩ := s
  cases exhaustive <;> cases random <;> simp [Slots.seal, node, gap, get]

end Slots

namespace Tree

variable {tree : TypeTree} {e : SealError}

theorem exists_seal_eq_ok : (∃ node, tree.seal = .ok node) ↔ ∀ n ∈ tree.nodes, n.Full := by
  induction tree with
  | int s | bool s | float s | str alphabet s =>
      simp only [Tree.seal, nodes, map_eq_ok, List.forall_mem_singleton, ← Slots.exists_seal_eq_ok]
      constructor
      · rintro ⟨_, d, hd, _⟩
        exact ⟨d, hd⟩
      · rintro ⟨d, hd⟩
        exact ⟨_, d, hd, rfl⟩
  | collection c s item ih =>
      rw [nodes, List.forall_mem_cons, ← Slots.exists_seal_eq_ok, ← ih]
      simp only [Tree.seal, bind_eq_ok]
      constructor
      · rintro ⟨_, d, hd, node, hnode, _⟩
        exact ⟨⟨d, hd⟩, node, hnode⟩
      · rintro ⟨⟨d, hd⟩, node, hnode⟩
        exact ⟨_, d, hd, node, hnode, rfl⟩
  | dict s key value ihk ihv =>
      rw [nodes, List.forall_mem_cons, List.forall_mem_append, ← Slots.exists_seal_eq_ok, ← ihk,
        ← ihv]
      simp only [Tree.seal, bind_eq_ok]
      constructor
      · rintro ⟨_, d, hd, keyNode, hkey, valueNode, hvalue, _⟩
        exact ⟨⟨d, hd⟩, ⟨keyNode, hkey⟩, valueNode, hvalue⟩
      · rintro ⟨⟨d, hd⟩, ⟨keyNode, hkey⟩, valueNode, hvalue⟩
        exact ⟨_, d, hd, keyNode, hkey, valueNode, hvalue, rfl⟩

-- A node is sealed before its children, and a key before its value, so the traversal stops at the
-- first gap in pre-order.
theorem seal_eq_error : tree.seal = .error e ↔ FirstGap tree.nodes e := by
  induction tree with
  | int s | bool s | float s | str alphabet s =>
      rw [Tree.seal, nodes, map_eq_error, firstGap_singleton, Slots.seal_eq_error]
  | collection c s item ih =>
      rw [nodes, firstGap_cons, ← Slots.seal_eq_error, ← Slots.exists_seal_eq_ok, ← ih]
      simp only [Tree.seal, bind_pure_comp, bind_eq_error, map_eq_error, exists_and_right]
  | dict s key value ihk ihv =>
      rw [nodes, firstGap_cons, firstGap_append, ← Slots.seal_eq_error, ← Slots.exists_seal_eq_ok,
        ← exists_seal_eq_ok, ← ihk, ← ihv]
      simp only [Tree.seal, bind_pure_comp, bind_eq_error, map_eq_error, exists_and_right]

theorem seal_eq_ok_iff_domains {node : Node} : tree.seal = .ok node ↔
    ∀ role, tree.domains role = node.map fun d => (some (d.get role) : Slot _) := by
  constructor
  · exact fun h => domains_of_seal h
  · intro h
    refine seal_eq_ok.mpr (ext_domains fun role => ?_)
    have hsealed : (node.map Slots.ofDomains).seal = .ok node := seal_eq_ok.mpr rfl
    rw [h role, domains_of_seal hsealed]

theorem shape_of_seal {node : Node} (h : tree.seal = .ok node) : node.shape = tree.shape := by
  rw [seal_eq_ok.mp h, shape, shape, map_map]

-- A tree with both domains at every node is sealed to the node of its shape that has them.
-- Otherwise the first gap is named.
theorem seal_outcome (tree : TypeTree) :
    ((∃ node, tree.seal = .ok node) ↔ ∀ n ∈ tree.nodes, n.Full) ∧
    (∀ node, tree.seal = .ok node ↔ node.shape = tree.shape ∧
      ∀ role, tree.domains role = node.map fun d => (some (d.get role) : Slot _)) ∧
    ∀ e, tree.seal = .error e ↔ FirstGap tree.nodes e := by
  refine ⟨exists_seal_eq_ok, fun node => ⟨fun h => ⟨shape_of_seal h, domains_of_seal h⟩, ?_⟩,
    fun e => seal_eq_error⟩
  rintro ⟨_, hdomains⟩
  exact seal_eq_ok_iff_domains.mpr hdomains

end Tree

end CallSuite
