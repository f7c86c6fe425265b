import CallSuite.Exhaustive.Values
import CallSuite.Proofs.Exhaustive.Rows
import CallSuite.Proofs.Ordered
import CallSuite.Proofs.Value.Order
import Mathlib.Data.List.Perm.Basic

namespace CallSuite

theorem eq_of_perm_of_map_eq {f : α → β} {xs ys : List α} (hperm : xs.Perm ys)
    (hmap : xs.map f = ys.map f) (hnodup : (xs.map f).Nodup) : xs = ys := by
  refine List.ext_getElem hperm.length_eq fun i hx hy => ?_
  have hi : f xs[i] = f ys[i] := by
    have h := congrArg (·[i]?) hmap
    simpa [hx, hy] using h
  exact List.inj_on_of_nodup_map hnodup (List.getElem_mem hx)
    (hperm.mem_iff.mpr (List.getElem_mem hy)) hi

theorem exists_perm_of_perm_map {f : α → β} {xs : List α} {ys : List β}
    (h : ys.Perm (xs.map f)) : ∃ zs : List α, zs.Perm xs ∧ zs.map f = ys := by
  have hself : List.Forall₂ (fun y x => y = f x) (xs.map f) xs :=
    List.forall₂_map_left_iff.mpr (List.forall₂_same.mpr fun _ _ => rfl)
  obtain ⟨zs, hzs, hperm⟩ := List.perm_comp_forall₂ h hself
  refine ⟨zs, hperm, ?_⟩
  rw [← List.forall₂_eq_eq_eq, List.forall₂_map_left_iff]
  exact hzs.flip.imp fun _ _ => Eq.symm

theorem filter_mem_perm [DecidableEq α] {xs ys : List α} (hxs : xs.Nodup) (hys : ys.Nodup)
    (hmem : ∀ y ∈ ys, y ∈ xs) : (xs.filter (· ∈ ys)).Perm ys := by
  refine (List.perm_ext_iff_of_nodup (hxs.filter _) hys).mpr fun y => ?_
  rw [List.mem_filter, decide_eq_true_iff]
  exact ⟨And.right, fun hy => ⟨hmem y hy, hy⟩⟩

namespace Value

def Ascend (items : List Value) : Prop := items.Pairwise (compare · · = .lt)

def KeysAscend (entries : List (Value × Value)) : Prop :=
  entries.Pairwise fun a b => compare a.1 b.1 = .lt

instance : Std.TransCmp fun a b : Value × Value => compare a.1 b.1 where
  eq_swap := compare_swap _ _
  isLE_trans hab hbc := Std.TransCmp.isLE_trans (α := Value) hab hbc

theorem Ascend.nodup {items : List Value} (h : Ascend items) : items.Nodup := nodup_of_ascending h

theorem KeysAscend.nodup_keys {entries : List (Value × Value)} (h : KeysAscend entries) :
    (entries.map Prod.fst).Nodup :=
  nodup_of_ascending (List.pairwise_map.mpr h)

-- Members that differ all stay, so the set has as many as were put in.
theorem exists_setOf {items : List Value} (h : items.Nodup) :
    ∃ members, setOf items = .collection .set members ∧ Ascend members ∧ members.Perm items := by
  refine ⟨_, rfl, pairwise_sortDistinct compare items, sortDistinct_perm (h.imp ?_)⟩
  intro a b hne heq
  exact hne (eq_of_compare a b heq)

theorem exists_dictOf {entries : List (Value × Value)} (h : (entries.map Prod.fst).Nodup) :
    ∃ kept, dictOf entries = .dict kept ∧ KeysAscend kept ∧ kept.Perm entries := by
  refine ⟨_, rfl, pairwise_sortDistinct _ entries,
    sortDistinct_perm ((List.pairwise_map.mp h).imp ?_)⟩
  intro a b hne heq
  exact hne (eq_of_compare a.1 b.1 heq)

theorem setOf_of_perm {items members : List Value} (hascend : Ascend members)
    (hperm : items.Perm members) : setOf items = .collection .set members := by
  obtain ⟨members', heq, hascend', hperm'⟩ := exists_setOf (hperm.nodup_iff.mpr hascend.nodup)
  rw [heq, eq_of_perm_of_ascending (hperm'.trans hperm) hascend' hascend]

theorem dictOf_of_perm {entries kept : List (Value × Value)} (hascend : KeysAscend kept)
    (hperm : entries.Perm kept) : dictOf entries = .dict kept := by
  have hkeys := (hperm.map Prod.fst).nodup_iff.mpr hascend.nodup_keys
  obtain ⟨kept', heq, hascend', hperm'⟩ := exists_dictOf hkeys
  rw [heq, eq_of_perm_of_ascending (hperm'.trans hperm) hascend' hascend]

theorem perm_of_setOf_eq {xs ys : List Value} (hx : xs.Nodup) (hy : ys.Nodup)
    (h : setOf xs = setOf ys) : xs.Perm ys := by
  obtain ⟨members, hxs, _, hperm⟩ := exists_setOf hx
  obtain ⟨members', hys, _, hperm'⟩ := exists_setOf hy
  have heq : members = members' := by simpa [hxs, hys] using h
  subst heq
  exact hperm.symm.trans hperm'

theorem perm_of_dictOf_eq {xs ys : List (Value × Value)} (hx : (xs.map Prod.fst).Nodup)
    (hy : (ys.map Prod.fst).Nodup) (h : dictOf xs = dictOf ys) : xs.Perm ys := by
  obtain ⟨kept, hxs, _, hperm⟩ := exists_dictOf hx
  obtain ⟨kept', hys, _, hperm'⟩ := exists_dictOf hy
  have heq : kept = kept' := by simpa [hxs, hys] using h
  subst heq
  exact hperm.symm.trans hperm'

section Sets

variable {items : List Value} {n : Nat}

theorem mem_sets (h : items.Nodup) {v : Value} :
    v ∈ (combinations items n).map setOf ↔
      ∃ members, v = .collection .set members ∧ Ascend members ∧ members.length = n ∧
        ∀ x ∈ members, x ∈ items := by
  rw [List.mem_map]
  constructor
  · rintro ⟨row, hrow, rfl⟩
    obtain ⟨hsub, hlen⟩ := mem_combinations.mp hrow
    obtain ⟨members, heq, hascend, hperm⟩ := exists_setOf (h.sublist hsub)
    refine ⟨members, heq, hascend, hperm.length_eq.trans hlen, fun x hx => ?_⟩
    exact hsub.subset (hperm.mem_iff.mp hx)
  · rintro ⟨members, rfl, hascend, hlen, hmem⟩
    classical
    -- The members in the order in which they are chosen from.
    have hperm := filter_mem_perm h hascend.nodup hmem
    exact ⟨_, mem_combinations.mpr ⟨List.filter_sublist, hperm.length_eq.trans hlen⟩,
      setOf_of_perm hascend hperm⟩

theorem nodup_sets (h : items.Nodup) : ((combinations items n).map setOf).Nodup := by
  refine (nodup_combinations h n).map_on fun xs hxs ys hys heq => ?_
  have hsub := (mem_combinations.mp hxs).1
  have hsub' := (mem_combinations.mp hys).1
  have hperm := perm_of_setOf_eq (h.sublist hsub) (h.sublist hsub') heq
  exact eq_of_sublist_of_mem_iff h hsub hsub' fun x => hperm.mem_iff

theorem mem_collections (c : Collection) (h : items.Nodup) {v : Value} :
    v ∈ (c.rows items n).map (ofItems c) ↔
      ∃ members, v = .collection c members ∧ (c = .set → Ascend members) ∧ members.length = n ∧
        ∀ x ∈ members, x ∈ items := by
  cases c with
  | set =>
      simp only [forall_const]
      exact mem_sets h
  | _ =>
      simp only [Collection.rows, ofItems, List.mem_map, mem_power, reduceCtorEq, false_implies,
        true_and]
      exact exists_congr fun members => by rw [and_comm, eq_comm]

theorem length?_of_mem_collections (c : Collection) (h : items.Nodup) {v : Value}
    (hv : v ∈ (c.rows items n).map (ofItems c)) : v.length? = some n := by
  obtain ⟨members, rfl, _, hlength, _⟩ := (mem_collections c h).mp hv
  exact congrArg some hlength

theorem nodup_collections (c : Collection) (h : items.Nodup) :
    ((c.rows items n).map (ofItems c)).Nodup := by
  cases c with
  | set => exact nodup_sets h
  | _ => exact (nodup_power h n).map fun xs ys heq => by simpa [ofItems] using heq

end Sets

section Strings

variable {alphabet : List Char} {n : Nat}

theorem mem_strings {v : Value} :
    v ∈ (power alphabet n).map (fun cs => .str (String.ofList cs)) ↔
      ∃ s, v = .str s ∧ s.length = n ∧ ∀ c ∈ s.toList, c ∈ alphabet := by
  rw [List.mem_map]
  constructor
  · rintro ⟨cs, hcs, rfl⟩
    exact ⟨_, rfl, by simpa using mem_power.mp hcs⟩
  · rintro ⟨s, rfl, hs⟩
    exact ⟨s.toList, mem_power.mpr hs, by rw [String.ofList_toList]⟩

theorem length?_of_mem_strings {v : Value}
    (hv : v ∈ (power alphabet n).map fun cs => .str (String.ofList cs)) : v.length? = some n := by
  obtain ⟨s, rfl, hlength, _⟩ := mem_strings.mp hv
  exact congrArg some hlength

theorem nodup_strings (h : alphabet.Nodup) :
    ((power alphabet n).map fun cs => Value.str (String.ofList cs)).Nodup := by
  refine (nodup_power h n).map fun xs ys heq => ?_
  exact String.ofList_injective (Value.str.inj heq)

end Strings

section Dicts

variable {keys values : List Value} {n : Nat}

theorem map_fst_zip_of_mem {chosen row : List Value} (hchosen : chosen ∈ combinations keys n)
    (hrow : row ∈ power values n) : (chosen.zip row).map Prod.fst = chosen := by
  have hlen := (mem_combinations.mp hchosen).2
  have hlen' := (mem_power.mp hrow).1
  exact List.map_fst_zip (by omega)

theorem mem_dicts (h : keys.Nodup) {v : Value} :
    v ∈ dicts keys values n ↔
      ∃ entries, v = .dict entries ∧ KeysAscend entries ∧ entries.length = n ∧
        ∀ e ∈ entries, e.1 ∈ keys ∧ e.2 ∈ values := by
  simp only [dicts, List.mem_flatMap, List.mem_map]
  constructor
  · rintro ⟨chosen, hchosen, row, hrow, rfl⟩
    have hfst := map_fst_zip_of_mem hchosen hrow
    obtain ⟨hsub, hlen⟩ := mem_combinations.mp hchosen
    obtain ⟨hlen', hmem⟩ := mem_power.mp hrow
    obtain ⟨kept, heq, hascend, hperm⟩ := exists_dictOf (hfst ▸ h.sublist hsub)
    refine ⟨kept, heq, hascend, ?_, fun e he => ?_⟩
    · rw [hperm.length_eq, List.length_zip, hlen, hlen', Nat.min_self]
    · have hzip := List.of_mem_zip (hperm.mem_iff.mp he)
      exact ⟨hsub.subset hzip.1, hmem e.2 hzip.2⟩
  · rintro ⟨entries, rfl, hascend, hlen, hmem⟩
    classical
    have hkeys : ∀ k ∈ entries.map Prod.fst, k ∈ keys := by
      intro k hk
      obtain ⟨e, he, rfl⟩ := List.mem_map.mp hk
      exact (hmem e he).1
    have hchosen := filter_mem_perm h hascend.nodup_keys hkeys
    -- The entries in the order of their chosen keys.
    obtain ⟨ordered, hperm, hfst⟩ := exists_perm_of_perm_map hchosen
    have hsub : (ordered.map Prod.fst).Sublist keys := hfst ▸ List.filter_sublist
    have hlen' := hperm.length_eq.trans hlen
    refine ⟨_, mem_combinations.mpr ⟨hsub, ?_⟩, ordered.map Prod.snd, mem_power.mpr ⟨?_, ?_⟩, ?_⟩
    · rw [List.length_map, hlen']
    · rw [List.length_map, hlen']
    · intro x hx
      obtain ⟨e, he, rfl⟩ := List.mem_map.mp hx
      exact (hmem e (hperm.mem_iff.mp he)).2
    · rw [← List.zip_of_prod rfl rfl]
      exact dictOf_of_perm hascend hperm

theorem length?_of_mem_dicts (h : keys.Nodup) {v : Value} (hv : v ∈ dicts keys values n) :
    v.length? = some n := by
  obtain ⟨entries, rfl, _, hlength, _⟩ := (mem_dicts h).mp hv
  exact congrArg some hlength

theorem nodup_dicts (hkeys : keys.Nodup) (hvalues : values.Nodup) :
    (dicts keys values n).Nodup := by
  have hperm : ∀ xs ∈ combinations keys n, ∀ ys ∈ combinations keys n,
      ∀ v ∈ power values n, ∀ w ∈ power values n,
      dictOf (xs.zip v) = dictOf (ys.zip w) → (xs.zip v).Perm (ys.zip w) := by
    intro xs hxs ys hys v hv w hw heq
    refine perm_of_dictOf_eq ?_ ?_ heq
    · rw [map_fst_zip_of_mem hxs hv]
      exact hkeys.sublist (mem_combinations.mp hxs).1
    · rw [map_fst_zip_of_mem hys hw]
      exact hkeys.sublist (mem_combinations.mp hys).1
  rw [dicts, List.nodup_flatMap]
  constructor
  · intro xs hxs
    refine (nodup_power hvalues n).map_on fun v hv w hw heq => ?_
    have hfst := map_fst_zip_of_mem hxs hv
    have hfst' := map_fst_zip_of_mem hxs hw
    have hnodup := hkeys.sublist (mem_combinations.mp hxs).1
    have hzip := eq_of_perm_of_map_eq (hperm xs hxs xs hxs v hv w hw heq) (hfst.trans hfst'.symm)
      (hfst.symm ▸ hnodup)
    have hlen := (mem_combinations.mp hxs).2
    have hlenv := (mem_power.mp hv).1
    have hlenw := (mem_power.mp hw).1
    have hsnd : (xs.zip v).map Prod.snd = v := List.map_snd_zip (by omega)
    rw [← hsnd, hzip, List.map_snd_zip (by omega)]
  · refine (nodup_combinations hkeys n).pairwise_of_forall_ne fun xs hxs ys hys hne => ?_
    intro value hx hy
    obtain ⟨v, hv, rfl⟩ := List.mem_map.mp hx
    obtain ⟨w, hw, heq⟩ := List.mem_map.mp hy
    have hkeyperm := (hperm xs hxs ys hys v hv w hw heq.symm).map Prod.fst
    rw [map_fst_zip_of_mem hxs hv, map_fst_zip_of_mem hys hw] at hkeyperm
    exact hne (eq_of_sublist_of_mem_iff hkeys (mem_combinations.mp hxs).1
      (mem_combinations.mp hys).1 fun x => hkeyperm.mem_iff)

end Dicts

end Value

end CallSuite
