import CallSuite.Proofs.Binary64.Number
import CallSuite.Proofs.Exhaustive.Containers

namespace CallSuite.Value

-- One value is less than another.
def Less (a b : Value) : Prop := compare a b = .lt

instance (a b : Value) : Decidable (Less a b) := inferInstanceAs (Decidable (compare a b = .lt))

section Lexicographic

theorem compareItems_lt_iff {xs ys : List Value} :
    compareItems xs ys = .lt ↔ List.Lex Less xs ys := by
  induction xs generalizing ys with
  | nil => cases ys with
    | nil =>
        simp only [compareItems, reduceCtorEq, false_iff]
        nofun
    | cons y ys => exact iff_of_true rfl .nil
  | cons x xs ih => cases ys with
    | nil =>
        simp only [compareItems, reduceCtorEq, false_iff]
        nofun
    | cons y ys =>
        rw [compareItems_cons_lt_iff, ih]
        constructor
        · rintro (hlt | ⟨rfl, hrest⟩)
          · exact .rel hlt
          · exact .cons hrest
        · intro h
          cases h with
          | rel hlt => exact .inl hlt
          | cons hrest => exact .inr ⟨rfl, hrest⟩

theorem compareEntries_lt_iff {xs ys : List (Value × Value)} :
    compareEntries xs ys = .lt ↔ List.Lex (Prod.Lex Less Less) xs ys := by
  induction xs generalizing ys with
  | nil => cases ys with
    | nil =>
        simp only [compareEntries, reduceCtorEq, false_iff]
        nofun
    | cons y ys => exact iff_of_true rfl .nil
  | cons x xs ih => cases ys with
    | nil =>
        simp only [compareEntries, reduceCtorEq, false_iff]
        nofun
    | cons y ys =>
        obtain ⟨k, v⟩ := x
        obtain ⟨l, w⟩ := y
        rw [compareEntries_cons_lt_iff, ih]
        constructor
        · rintro (hlt | ⟨rfl, hlt | ⟨rfl, hrest⟩⟩)
          · exact .rel (.left v w hlt)
          · exact .rel (.right k hlt)
          · exact .cons hrest
        · intro h
          cases h with
          | rel h => cases h with
            | left _ _ hlt => exact .inl hlt
            | right _ hlt => exact .inr ⟨rfl, .inl hlt⟩
          | cons hrest => exact .inr ⟨rfl, .inr ⟨rfl, hrest⟩⟩

end Lexicographic

-- A value of each kind, whatever it holds: the kinds come in this order.
theorem kinds_ascend (b : Bool) (i : Int) (x : Binary64) (s : String) (xs ys zs : List Value)
    (entries : List (Value × Value)) :
    Ascend [.bool b, .int i, .float x, .str s, .collection .list xs, .collection .tuple ys,
      .collection .set zs, .dict entries] := by
  have hranks : List.Pairwise (fun a b : Value => a.rank < b.rank) [.bool b, .int i, .float x,
      .str s, .collection .list xs, .collection .tuple ys, .collection .set zs, .dict entries] := by
    simp [rank]
  exact hranks.imp compare_lt_of_rank_lt

section Scalars

theorem bool_less_iff {a b : Bool} : Less (.bool a) (.bool b) ↔ a = false ∧ b = true := by
  cases a <;> cases b <;> decide

theorem float_less_iff {x y : Binary64} {v w : WithBot (WithTop ℚ)} (hx : x.number? = some v)
    (hy : y.number? = some w) : Less (.float x) (.float y) ↔
      v < w ∨ x = Binary64.negativeZero ∧ y = ⟨0⟩ := by
  rw [Binary64.number?_lt_iff hx hy, ← Binary64.rank_lt_iff]
  exact Int.compare_eq_lt

theorem str_less_iff {s t : String} :
    Less (.str s) (.str t) ↔ List.Lex (· < ·) s.toList t.toList := by
  rw [← List.lt_iff_lex_lt]
  exact compareOfLessAndEq_eq_lt

end Scalars

theorem compare_outcome (a b : Value) : match compare a b with
    | .lt => a ≠ b ∧ compare b a = .gt
    | .eq => a = b ∧ compare b a = .eq
    | .gt => a ≠ b ∧ compare b a = .lt := by
  rw [compare_swap b a, ne_eq, ← compare_eq_iff]
  cases compare a b <;> decide

section Canonical

-- Equal keys make equal entries here, whatever the values are.
abbrev compareKeys (a b : Value × Value) : Ordering := compare a.1 b.1

theorem exists_canonical_set (xs : List Value) : ∃ members, setOf xs = .collection .set members ∧
    Ascend members ∧ (∀ v, v ∈ members ↔ v ∈ xs) ∧
    ∀ others, Ascend others → (∀ v, v ∈ others ↔ v ∈ xs) → others = members := by
  have hascend : Ascend (sortDistinct compare xs) := pairwise_sortDistinct compare xs
  refine ⟨_, rfl, hascend, fun v => mem_sortDistinct, fun others hothers hmem => ?_⟩
  apply eq_of_mem_iff_of_ascending hothers hascend
  intro v
  rw [hmem, mem_sortDistinct]

theorem exists_canonical_dict (entries : List (Value × Value)) : ∃ kept,
    dictOf entries = .dict kept ∧ KeysAscend kept ∧
    (∀ e, e ∈ kept ↔ IsLast compareKeys e entries) ∧
    ∀ others, KeysAscend others → (∀ e, e ∈ others ↔ IsLast compareKeys e entries) →
      others = kept := by
  have hascend : KeysAscend (sortDistinct compareKeys entries) := pairwise_sortDistinct _ entries
  have hkept (e : Value × Value) :
      e ∈ sortDistinct compareKeys entries ↔ IsLast compareKeys e entries := mem_sortDistinct_iff
  refine ⟨_, rfl, hascend, hkept, fun others hothers hmem => ?_⟩
  apply eq_of_mem_iff_of_ascending hothers hascend
  intro e
  rw [hmem, hkept]

end Canonical

-- The order of the values is total, and a set or a dict can be written down in it in one way.
theorem compare_total_and_canonical :
    (∀ a b : Value, match compare a b with
      | .lt => a ≠ b ∧ compare b a = .gt
      | .eq => a = b ∧ compare b a = .eq
      | .gt => a ≠ b ∧ compare b a = .lt) ∧
    (∀ a b c, Less a b → Less b c → Less a c) ∧
    (∀ b i x s xs ys zs entries, Ascend [.bool b, .int i, .float x, .str s, .collection .list xs,
      .collection .tuple ys, .collection .set zs, .dict entries]) ∧
    (∀ a b, Less (.bool a) (.bool b) ↔ a = false ∧ b = true) ∧
    (∀ i j, Less (.int i) (.int j) ↔ i < j) ∧
    (∀ x y, compare (.float x) (.float y) = .eq ↔ x.bits = y.bits) ∧
    (∀ x y v w, x.number? = some v → y.number? = some w →
      (Less (.float x) (.float y) ↔ v < w ∨ x = Binary64.negativeZero ∧ y = ⟨0⟩)) ∧
    (∀ s t, Less (.str s) (.str t) ↔ List.Lex (· < ·) s.toList t.toList) ∧
    (∀ c xs ys, Less (.collection c xs) (.collection c ys) ↔ List.Lex Less xs ys) ∧
    (∀ xs ys, Less (.dict xs) (.dict ys) ↔ List.Lex (Prod.Lex Less Less) xs ys) ∧
    (∀ xs, ∃ members, setOf xs = .collection .set members ∧ Ascend members ∧
      (∀ v, v ∈ members ↔ v ∈ xs) ∧
      ∀ others, Ascend others → (∀ v, v ∈ others ↔ v ∈ xs) → others = members) ∧
    ∀ entries, ∃ kept, dictOf entries = .dict kept ∧ KeysAscend kept ∧
      (∀ e, e ∈ kept ↔ IsLast compareKeys e entries) ∧
      ∀ others, KeysAscend others → (∀ e, e ∈ others ↔ IsLast compareKeys e entries) →
        others = kept := by
  refine ⟨compare_outcome, compare_lt_trans, kinds_ascend, fun _ _ => bool_less_iff,
    fun _ _ => Int.compare_eq_lt, fun x y => ?_, fun _ _ _ _ => float_less_iff,
    fun _ _ => str_less_iff, fun c xs ys => ?_, fun _ _ => compareEntries_lt_iff,
    exists_canonical_set, exists_canonical_dict⟩
  · rw [compare_eq_iff, float.injEq, Binary64.mk.injEq]
  · rw [Less, compare_collection, compareItems_lt_iff]

-- Both zeros are the number zero, and still they are two members of a set.
theorem compare_total_and_canonical_zeros :
    Binary64.negativeZero.number? = some 0 ∧ Binary64.number? ⟨0⟩ = some 0 ∧
    Less (.float Binary64.negativeZero) (.float ⟨0⟩) ∧ Less (.float ⟨0⟩) (.collection .set []) ∧
    Less (.float Binary64.negativeZero) (.collection .set []) ∧
    setOf [.float ⟨0⟩, .float Binary64.negativeZero, .float ⟨0⟩] =
      .collection .set [.float Binary64.negativeZero, .float ⟨0⟩] := by
  have hnegative : Binary64.negativeZero.number? = some 0 := by decide +kernel
  have hpositive : Binary64.number? ⟨0⟩ = some 0 := by decide +kernel
  obtain ⟨_, htrans, _, _, _, _, hfloat, _, _, _, hset, _⟩ := compare_total_and_canonical
  have hzeros := (hfloat _ _ _ _ hnegative hpositive).mpr (.inr ⟨rfl, rfl⟩)
  have hkinds : Less (.float ⟨0⟩) (.collection .set []) := by decide
  obtain ⟨members, hmembers, _, _, honly⟩ :=
    hset [.float ⟨0⟩, .float Binary64.negativeZero, .float ⟨0⟩]
  have hascend : Ascend [.float Binary64.negativeZero, .float ⟨0⟩] := List.pairwise_pair.mpr hzeros
  rw [hmembers, ← honly _ hascend (by simp)]
  exact ⟨hnegative, hpositive, hzeros, hkinds, htrans _ _ _ hzeros hkinds, rfl⟩

end CallSuite.Value
