import CallSuite.Proofs.Distinct
import CallSuite.Proofs.Exhaustive.Containers

namespace CallSuite

-- Which values the exhaustive domains of a node allow. Sets and dicts are taken in the one form
-- in which they are written: members, and keys, in ascending order.
def Tree.Conforms : Node → Value → Prop
  | .int d, .int i => i ∈ d.exhaustive.toList
  | .bool d, .bool b => b ∈ d.exhaustive.toList
  | .float d, .float x => x ∈ d.exhaustive.toList
  | .str alphabet d, .str s => s.length ∈ d.exhaustive.toList ∧ ∀ c ∈ s.toList, c ∈ alphabet
  | .collection c d item, .collection c' members =>
    c' = c ∧ (c = .set → Value.Ascend members) ∧ members.length ∈ d.exhaustive.toList ∧
      ∀ v ∈ members, item.Conforms v
  | .dict d key value, .dict entries =>
    Value.KeysAscend entries ∧ entries.length ∈ d.exhaustive.toList ∧
      ∀ e ∈ entries, key.Conforms e.1 ∧ value.Conforms e.2
  | _, _ => False

-- Values of different lengths are different, so the lengths can be gone through one by one.
theorem nodup_flatMap_lengths {ns : List Nat} {f : Nat → List Value} (hns : ns.Nodup)
    (hf : ∀ n, (f n).Nodup) (hlength : ∀ n, ∀ v ∈ f n, v.length? = some n) :
    (ns.flatMap f).Nodup := by
  rw [List.nodup_flatMap]
  refine ⟨fun n _ => hf n, hns.imp fun {m n} hne v hm hn => ?_⟩
  have h := (hlength m v hm).symm.trans (hlength n v hn)
  exact hne (Option.some.inj h)

theorem Tree.nodup_exhaustiveValues (node : Node) : node.exhaustiveValues.Nodup := by
  induction node with
  | int d => exact (nodup_distinct _).map fun _ _ h => Value.int.inj h
  | bool d => exact (nodup_distinct _).map fun _ _ h => Value.bool.inj h
  | float d => exact (nodup_distinct _).map fun _ _ h => Value.float.inj h
  | str alphabet d =>
      have hchars := alphabet.nodup_toList
      exact nodup_flatMap_lengths (nodup_distinct _) (fun _ => Value.nodup_strings hchars)
        fun _ _ => Value.length?_of_mem_strings
  | collection c d item ih =>
      exact nodup_flatMap_lengths (nodup_distinct _) (fun _ => Value.nodup_collections c ih)
        fun _ _ => Value.length?_of_mem_collections c ih
  | dict d key value ihk ihv =>
      exact nodup_flatMap_lengths (nodup_distinct _) (fun _ => Value.nodup_dicts ihk ihv)
        fun _ _ => Value.length?_of_mem_dicts ihk

theorem Tree.mem_exhaustiveValues {node : Node} {v : Value} :
    v ∈ node.exhaustiveValues ↔ node.Conforms v := by
  induction node generalizing v with
  | int d => cases v <;> simp [exhaustiveValues, Conforms]
  | bool d => cases v <;> simp [exhaustiveValues, Conforms]
  | float d => cases v <;> simp [exhaustiveValues, Conforms]
  | str alphabet d =>
      simp only [exhaustiveValues, List.mem_flatMap, mem_distinct, Value.mem_strings]
      constructor
      · rintro ⟨n, hn, s, rfl, rfl, hmem⟩
        exact ⟨hn, hmem⟩
      · intro h
        cases v with
        | str s => exact ⟨s.length, h.1, s, rfl, rfl, h.2⟩
        | _ => exact h.elim
  | collection c d item ih =>
      have hitems := nodup_exhaustiveValues item
      simp only [exhaustiveValues, List.mem_flatMap, mem_distinct, Value.mem_collections c hitems,
        ih]
      constructor
      · rintro ⟨n, hn, members, rfl, hascend, rfl, hmem⟩
        exact ⟨rfl, hascend, hn, hmem⟩
      · intro h
        cases v with
        | collection c' members =>
            obtain ⟨rfl, hascend, hlen, hmem⟩ := h
            exact ⟨members.length, hlen, members, rfl, hascend, rfl, hmem⟩
        | _ => exact h.elim
  | dict d key value ihk ihv =>
      have hkeys := nodup_exhaustiveValues key
      simp only [exhaustiveValues, List.mem_flatMap, mem_distinct, Value.mem_dicts hkeys, ihk, ihv]
      constructor
      · rintro ⟨n, hn, entries, rfl, hascend, rfl, hmem⟩
        exact ⟨hascend, hn, hmem⟩
      · intro h
        cases v with
        | dict entries => exact ⟨entries.length, h.2.1, entries, rfl, h.1, rfl, h.2.2⟩
        | _ => exact h.elim

section Listed

variable [Hashable Value]

-- The values entry by entry, as the domain was written. Only what the children have is distinct.
def Tree.listedValues : Node → List Value
  | .int d => d.exhaustive.toList.map .int
  | .bool d => d.exhaustive.toList.map .bool
  | .float d => d.exhaustive.toList.map .float
  | .str alphabet d => d.exhaustive.toList.flatMap fun n =>
    (power alphabet.toList n).map fun cs => .str (String.ofList cs)
  | .collection c d item =>
    let items := distinct item.listedValues
    d.exhaustive.toList.flatMap fun n => (c.rows items n).map (.ofItems c)
  | .dict d key value =>
    let keys := distinct key.listedValues
    let values := distinct value.listedValues
    d.exhaustive.toList.flatMap (Value.dicts keys values)

theorem distinct_flatMap_lengths {f : Nat → List Value} (hf : ∀ n, (f n).Nodup)
    (hlength : ∀ n, ∀ v ∈ f n, v.length? = some n) (ns : List Nat) :
    distinct (ns.flatMap f) = (distinct ns).flatMap f := by
  rw [distinct_eq_eraseDups, distinct_eq_eraseDups]
  refine eraseDups_flatMap (fun m n v hm hn => ?_) hf ns
  exact Option.some.inj ((hlength m v hm).symm.trans (hlength n v hn))

-- It makes no difference whether the entries of a domain are made distinct or the values made of
-- them.
theorem Tree.distinct_listedValues (node : Node) :
    distinct node.listedValues = node.exhaustiveValues := by
  induction node with
  | int d => exact distinct_map (fun _ _ h => Value.int.inj h) _
  | bool d => exact distinct_map (fun _ _ h => Value.bool.inj h) _
  | float d => exact distinct_map (fun _ _ h => Value.float.inj h) _
  | str alphabet d =>
      exact distinct_flatMap_lengths (fun _ => Value.nodup_strings alphabet.nodup_toList)
        (fun _ _ => Value.length?_of_mem_strings) _
  | collection c d item ih =>
      rw [listedValues, ih]
      have hitems := item.nodup_exhaustiveValues
      exact distinct_flatMap_lengths (fun _ => Value.nodup_collections c hitems)
        (fun _ _ => Value.length?_of_mem_collections c hitems) _
  | dict d key value ihk ihv =>
      rw [listedValues, ihk, ihv]
      have hkeys := key.nodup_exhaustiveValues
      exact distinct_flatMap_lengths
        (fun _ => Value.nodup_dicts hkeys value.nodup_exhaustiveValues)
        (fun _ _ => Value.length?_of_mem_dicts hkeys) _

end Listed

-- The exhaustive values of a node are the values that conform to it, and each comes once.
theorem Tree.exhaustiveValues_conforming_once (node : Node) :
    (∀ v, v ∈ node.exhaustiveValues ↔ node.Conforms v) ∧ node.exhaustiveValues.Nodup :=
  ⟨fun _ => mem_exhaustiveValues, node.nodup_exhaustiveValues⟩

end CallSuite
