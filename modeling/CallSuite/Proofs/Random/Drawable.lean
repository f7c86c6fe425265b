import CallSuite.Proofs.Exhaustive.Containers
import CallSuite.Proofs.Random.Bounds
import CallSuite.Proofs.Random.Source

namespace CallSuite

-- Equal members count once, so what was drawn with one of the sizes may have fewer. One stays.
def Domain.LeavesCount (sizes : Domain Nat) (count : Nat) : Prop :=
  ∃ n ∈ sizes.toList, count ≤ n ∧ (count = 0 → n = 0)

-- Which values the random domains of a node allow. From the empty alphabet only the empty string is
-- drawn, whatever its length was to be.
def Tree.Drawable : Node → Value → Prop
  | .int d, .int i => i ∈ d.random.toList
  | .bool d, .bool b => b ∈ d.random.toList
  | .float d, .float x => x ∈ d.random.toList
  | .str alphabet d, .str s =>
    (∀ c ∈ s.toList, c ∈ alphabet) ∧
      if alphabet.isEmpty then s = "" else s.length ∈ d.random.toList
  | .collection c d item, .collection c' members =>
    c' = c ∧
      (if c = .set then Value.Ascend members ∧ d.random.LeavesCount members.length
        else members.length ∈ d.random.toList) ∧
      ∀ v ∈ members, item.Drawable v
  | .dict d key value, .dict entries =>
    Value.KeysAscend entries ∧ d.random.LeavesCount entries.length ∧
      ∀ e ∈ entries, key.Drawable e.1 ∧ value.Drawable e.2
  | _, _ => False

theorem Domain.leavesCount_length {sizes : Domain Nat} {n : Nat} {xs kept : List α}
    (hn : n ∈ sizes.toList) (hxs : xs.length = n) (hle : kept.length ≤ xs.length)
    (hnil : kept = [] → xs = []) : sizes.LeavesCount kept.length := by
  refine ⟨n, hn, hxs ▸ hle, fun hkept => ?_⟩
  rw [← hxs, hnil (List.length_eq_zero_iff.mp hkept), List.length_nil]

theorem Domain.draw_mem [IndexSource σ] (d : Domain α) (s : σ) : (d.draw s).1 ∈ d.toList :=
  Array.mem_toList_iff.mpr (drawFrom_mem d.entries d.size_pos s)

variable {σ : Type} [IndexSource σ]

section Strings

variable {alphabet : List Char}

theorem mem_of_mem_drawString (n : Nat) (s : σ) :
    ∀ c ∈ (drawString alphabet n s).1.toList, c ∈ alphabet := by
  unfold drawString
  dsimp only
  split
  next h =>
    rw [String.toList_ofList]
    refine forall_mem_times _ (fun s => ?_) n s
    exact List.mem_toArray.mp (drawFrom_mem alphabet.toArray h s)
  next => simp

theorem length_drawString (h : alphabet ≠ []) (n : Nat) (s : σ) :
    (drawString alphabet n s).1.length = n := by
  have hsize : 0 < alphabet.toArray.size := List.length_pos_iff.mpr h
  unfold drawString
  dsimp only
  rw [dif_pos hsize, String.length_ofList, length_times]

end Strings

section Containers

variable {sizes : Domain Nat} {n : Nat}

theorem Value.setOf_drawable {item : Node} {items : List Value} (hn : n ∈ sizes.toList)
    (hitems : items.length = n) (h : ∀ v ∈ items, item.Drawable v) :
    ∃ members, setOf items = .collection .set members ∧ Ascend members ∧
      sizes.LeavesCount members.length ∧ ∀ v ∈ members, item.Drawable v := by
  refine ⟨_, rfl, pairwise_sortDistinct compare items, ?_, fun v hv => ?_⟩
  · exact Domain.leavesCount_length hn hitems (length_sortDistinct_le items)
      eq_nil_of_sortDistinct_eq_nil
  · exact h v (mem_of_mem_sortDistinct hv)

theorem Value.dictOf_drawable {key value : Node} {entries : List (Value × Value)}
    (hn : n ∈ sizes.toList) (hentries : entries.length = n)
    (h : ∀ e ∈ entries, key.Drawable e.1 ∧ value.Drawable e.2) :
    ∃ kept, dictOf entries = .dict kept ∧ KeysAscend kept ∧ sizes.LeavesCount kept.length ∧
      ∀ e ∈ kept, key.Drawable e.1 ∧ value.Drawable e.2 := by
  refine ⟨_, rfl, pairwise_sortDistinct _ entries, ?_, fun e he => ?_⟩
  · exact Domain.leavesCount_length hn hentries (length_sortDistinct_le entries)
      eq_nil_of_sortDistinct_eq_nil
  · exact h e (mem_of_mem_sortDistinct he)

end Containers

theorem Tree.drawable_randomValue (node : Node) (s : σ) : node.Drawable (node.randomValue s).1 := by
  induction node generalizing s with
  | int d => exact d.random.draw_mem s
  | bool d => exact d.random.draw_mem s
  | float d => exact d.random.draw_mem s
  | str alphabet d =>
      have hlength := d.random.draw_mem s
      simp only [randomValue, Drawable]
      refine ⟨mem_of_mem_drawString _ _, ?_⟩
      split
      next hempty =>
        have halphabet : alphabet.toList = [] := List.isEmpty_iff.mp hempty
        simp [drawString, halphabet]
      next hempty =>
        have halphabet : alphabet.toList ≠ [] := fun h => hempty (List.isEmpty_iff.mpr h)
        rwa [length_drawString halphabet]
  | collection c d item ih =>
      have hlength := d.random.draw_mem s
      have hitems := forall_mem_times _ ih (d.random.draw s).1 (d.random.draw s).2
      cases c with
      | set =>
          obtain ⟨members, heq, hascend, hcount, hmembers⟩ :=
            Value.setOf_drawable hlength (length_times _ _) hitems
          simp only [randomValue, Value.ofItems, heq]
          exact ⟨rfl, ⟨hascend, hcount⟩, hmembers⟩
      | list | tuple =>
          simp only [randomValue, Value.ofItems]
          refine ⟨rfl, ?_, hitems⟩
          rw [if_neg (by simp), length_times]
          exact hlength
  | dict d key value ihk ihv =>
      have hlength := d.random.draw_mem s
      have hentries := forall_mem_times
        (fun s : σ => (((key.randomValue s).1, (value.randomValue (key.randomValue s).2).1),
          (value.randomValue (key.randomValue s).2).2))
        (P := fun e => key.Drawable e.1 ∧ value.Drawable e.2) (fun s => ⟨ihk s, ihv _⟩)
        (d.random.draw s).1 (d.random.draw s).2
      obtain ⟨kept, heq, hkept⟩ := Value.dictOf_drawable hlength (length_times _ _) hentries
      simp only [randomValue, heq]
      exact hkept

-- No index that a value is drawn with is outside the domain or the alphabet it is for, and the
-- value is one that the random domains allow.
theorem Tree.randomValue_in_bounds_and_drawable (node : Node) (s : σ) :
    node.randomValue? s = some (node.randomValue s) ∧ node.Drawable (node.randomValue s).1 :=
  ⟨node.randomValue?_eq_some s, node.drawable_randomValue s⟩

end CallSuite
