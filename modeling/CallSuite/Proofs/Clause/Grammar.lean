import CallSuite.Clause.Decorated
import CallSuite.Proofs.Distinct
import CallSuite.Proofs.Scanning
import CallSuite.Proofs.Tree.Slots
import Mathlib.Data.Int.Range

namespace CallSuite.Clause

open CallSuite.Text

-- `number (',' number)* ']'`
inductive Numbers : List Token → List Binary64 → Prop where
  | last (hx : Binary64.read? s.toList = some x) : Numbers [.word s, .delim ']'] [x]
  | cons (hx : Binary64.read? s.toList = some x) (h : Numbers ts xs) :
      Numbers (.word s :: .delim ',' :: ts) (x :: xs)

inductive ListClause : List Token → List Binary64 → Prop where
  | mk (h : Numbers ts xs) : ListClause (.delim '[' :: ts) xs

inductive RangeClause : List Token → List Binary64 → Prop where
  | mk (ha : readInt64? lo.toList = some a) (hb : readInt64? hi.toList = some b) (hle : a ≤ b)
      (hlength : b - a + 1 ≤ maxRangeLength) :
      RangeClause [.word lo, .delim '~', .word hi] ((Int.range a (b + 1)).map Binary64.ofInt)

-- The numbers of a clause as the scan hands them on. Those of a list that have the same bits are
-- one, and a range keeps what it rounds to the same number.
inductive Denotes : List Token → List Binary64 → Prop where
  | list (h : ListClause ts xs) : Denotes ts xs.eraseDups
  | range (h : RangeClause ts xs) : Denotes ts xs

-- Every number is an entry, and equal ones are one.
def Converts [BEq α] (entry : Binary64 → Except DomainFault α) (xs : List Binary64)
    (ys : List α) : Prop :=
  ∃ zs : List α, xs.map entry = zs.map .ok ∧ ys = zs.eraseDups

-- The entries of a clause at a node of any kind but float.
def Entries [BEq α] (entry : Binary64 → Except DomainFault α) (ts : List Token) (ys : List α) :
    Prop :=
  ∃ xs, (ListClause ts xs ∨ RangeClause ts xs) ∧ Converts entry xs ys

-- The tokens of a domain descriptor for the tree, with the tree that gets the domains.
inductive Written (role : Role) : TypeTree → List Token → TypeTree → Prop where
  | int (h : Entries intEntry ts ys) (hfill : s.Fills role ys s') :
      Written role (.int s) ts (.int s')
  | bool (h : Entries boolEntry ts ys) (hfill : s.Fills role ys s') :
      Written role (.bool s) ts (.bool s')
  | float (h : Denotes ts ys) (hfill : s.Fills role ys s') :
      Written role (.float s) ts (.float s')
  | str (h : Entries (sizeEntry .str) ts ys) (hfill : s.Fills role ys s') :
      Written role (.str alphabet s) ts (.str alphabet s')
  | collection (h : Entries (sizeEntry (.collection c)) ts ys) (hfill : s.Fills role ys s')
      (hitem : Written role item us item') :
      Written role (.collection c s item) (ts ++ .delim '(' :: us) (.collection c s' item')
  | dict (h : Entries (sizeEntry .dict) ts ys) (hfill : s.Fills role ys s')
      (hkey : Written role key us key') (hvalue : Written role value vs value') :
      Written role (.dict s key value) (ts ++ .delim '(' :: (us ++ .delim ':' :: vs))
        (.dict s' key' value')

theorem nodup_range (a b : Int) : (Int.range a b).Nodup := by
  rw [Int.range]
  refine List.nodup_range.map fun m n hmn => ?_
  omega

theorem rangeValues_eq (a b : Int) :
    rangeValues a b = (Int.range a (b + 1)).map Binary64.ofInt := by
  rw [rangeValues, Int.range, List.map_map, show b + 1 - a = b - a + 1 by omega]
  rfl

section Scan

variable {items rest : List Item} {xs : List Binary64} {ts : List Token}

theorem takeRange_eq_ok {lo : String} :
    takeRange lo items = .ok (xs, rest) ↔
      ∃ hi, items = .number hi :: rest ∧ RangeClause [.word lo, .delim '~', .word hi] xs := by
  constructor
  · intro h
    unfold takeRange at h
    split at h <;> try cases h
    next hi items =>
      dsimp only at h
      split at h <;> try cases h
      split at h <;> try cases h
      split at h <;> cases h
      next a b ha hb hle hlength =>
        exact ⟨hi, rfl, rangeValues_eq a b ▸ .mk ha hb (by omega) (by omega)⟩
  · rintro ⟨hi, rfl, h⟩
    cases h with
    | mk ha hb hle hlength =>
        simp [takeRange, ha, hb, rangeValues_eq, Int.not_lt.mpr hle, Int.not_lt.mpr hlength]

theorem takeList_number_eq_ok {numbers : List Binary64} :
    takeList numbers false items = .ok (xs, rest) ↔ ∃ s x items', items = .number s :: items' ∧
      Binary64.read? s.toList = some x ∧ takeList (x :: numbers) true items' = .ok (xs, rest) := by
  cases items with
  | nil => simp [takeList]
  | cons item items =>
      cases item with
      | delim c =>
          by_cases hc : c = ']'
          · subst hc
            by_cases hempty : numbers = [] <;> simp [takeList, hempty]
          · simp [takeList]
      | values ys => simp [takeList]
      | number s =>
          cases hx : Binary64.read? s.toList <;> simp [takeList, hx]

theorem takeList_comma_eq_ok {numbers : List Binary64} :
    takeList numbers true items = .ok (xs, rest) ↔
      (items = .delim ']' :: rest ∧ xs = numbers.reverse) ∨
      ∃ items', items = .delim ',' :: items' ∧ takeList numbers false items' = .ok (xs, rest) := by
  cases items with
  | nil => simp [takeList]
  | cons item items =>
      cases item with
      | delim c =>
          by_cases hc : c = ']'
          · simp [takeList, hc, and_comm, eq_comm]
          · by_cases hcomma : c = ',' <;> simp [takeList, hc, hcomma]
      | values ys => simp [takeList]
      | number s => simp [takeList]

end Scan

theorem pushToken_open : pushToken (.delim '[') = fun items => do
    let (xs, rest) ← takeList [] false items
    return .values xs.eraseDups :: rest := by
  funext items
  rw [pushToken, distinct_eq]

-- The items of a scan spell out the tokens that they were read from.
inductive Reads : List Item → List Token → Prop where
  | nil : Reads [] []
  | delim (h : Reads items ts) : Reads (.delim c :: items) (.delim c :: ts)
  | number (h : Reads items ts) : Reads (.number s :: items) (.word s :: ts)
  | values (hxs : Denotes us xs) (h : Reads items ts) : Reads (.values xs :: items) (us ++ ts)

-- What is still to be read of a list, where a comma or the bracket may be due first.
def Awaited : Bool → List Token → List Binary64 → Prop
  | false, ts, xs => Numbers ts xs
  | true, ts, xs => ts = [.delim ']'] ∧ xs = [] ∨ ∃ us, ts = .delim ',' :: us ∧ Numbers us xs

section Scan

variable {items rest : List Item} {xs : List Binary64} {ts : List Token}

theorem Reads.takeList {numbers : List Binary64} {commaDue : Bool} (h : Reads items ts)
    (htake : takeList numbers commaDue items = .ok (xs, rest)) :
    ∃ us vs ys, ts = us ++ vs ∧ Reads rest vs ∧ xs = numbers.reverse ++ ys ∧
      Awaited commaDue us ys := by
  induction items generalizing numbers commaDue ts with
  | nil => cases htake
  | cons item items ih =>
      cases commaDue with
      | false =>
          obtain ⟨s, x, _, ⟨⟩, hx, htake⟩ := takeList_number_eq_ok.mp htake
          cases h with
          | number h =>
              obtain ⟨us, vs, ys, rfl, hvs, rfl, hus⟩ := ih h htake
              refine ⟨.word s :: us, vs, x :: ys, rfl, hvs, by simp, ?_⟩
              obtain ⟨rfl, rfl⟩ | ⟨us, rfl, hus⟩ := hus
              · exact .last hx
              · exact .cons hx hus
      | true =>
          obtain ⟨⟨⟩, rfl⟩ | ⟨_, ⟨⟩, htake⟩ := takeList_comma_eq_ok.mp htake
          · cases h with
            | delim h => exact ⟨[.delim ']'], _, [], rfl, h, by simp, .inl ⟨rfl, rfl⟩⟩
          · cases h with
            | delim h =>
                obtain ⟨us, vs, ys, rfl, hvs, hxs, hus⟩ := ih h htake
                exact ⟨.delim ',' :: us, vs, ys, rfl, hvs, hxs, .inr ⟨us, rfl, hus⟩⟩

theorem Reads.pushToken {token : Token} (h : Reads items ts)
    (hpush : pushToken token items = .ok rest) : Reads rest (token :: ts) := by
  unfold Clause.pushToken at hpush
  split at hpush
  · obtain ⟨⟨xs, below⟩, htake, ⟨⟩⟩ := bind_eq_ok.mp hpush
    obtain ⟨us, vs, ys, rfl, hvs, rfl, hus⟩ := h.takeList htake
    rw [distinct_eq_eraseDups]
    exact .values (.list (.mk hus)) hvs
  · cases hpush
    exact .delim h
  · obtain ⟨⟨xs, below⟩, htake, ⟨⟩⟩ := bind_eq_ok.mp hpush
    obtain ⟨hi, rfl, hxs⟩ := takeRange_eq_ok.mp htake
    cases h with
    | delim h =>
        cases h with
        | number h => exact .values (.range hxs) h
  · cases hpush
    exact .number h

theorem Reads.foldrM {us : List Token} (h : Reads items ts)
    (hscan : us.foldrM Clause.pushToken items = .ok rest) : Reads rest (us ++ ts) :=
  foldrM_invariant (fun _ _ _ _ h hpush => h.pushToken hpush) h hscan

theorem Numbers.exists_foldrM (h : Numbers ts xs) (items : List Item) :
    ∃ above, ts.foldrM Clause.pushToken items = .ok above ∧
      ∀ numbers, Clause.takeList numbers false above = .ok (numbers.reverse ++ xs, items) := by
  induction h with
  | @last x s hx =>
      refine ⟨.number s :: .delim ']' :: items, rfl, ?_⟩
      intro numbers
      simp [Clause.takeList, hx]
  | @cons x ts xs s hx h ih =>
      obtain ⟨above, hscan, htake⟩ := ih
      have hcomma : (.delim ',' :: ts).foldrM Clause.pushToken items = .ok (.delim ',' :: above) :=
        foldrM_cons_of_eq_ok hscan
      refine ⟨.number s :: .delim ',' :: above, foldrM_cons_of_eq_ok hcomma, ?_⟩
      intro numbers
      simp [Clause.takeList, hx, htake]

-- A number in front of the sign of a range is its lower bound, so no such sign may follow.
theorem Denotes.foldrM (h : Denotes ts xs) (hitems : items.head? ≠ some (.delim '~')) :
    ts.foldrM Clause.pushToken items = .ok (.values xs :: items) := by
  cases h with
  | list h =>
      cases h with
      | mk h =>
          obtain ⟨above, hscan, htake⟩ := h.exists_foldrM items
          rw [foldrM_cons_of_eq_ok hscan]
          simp only [pushToken_open, htake]
          rfl
  | range h =>
      cases h with
      | @mk a b lo hi ha hb hle hlength =>
          have hhi : [Token.word hi].foldrM Clause.pushToken items = .ok (.number hi :: items) := by
            rw [foldrM_cons_of_eq_ok rfl]
            unfold Clause.pushToken
            split <;> simp_all
          have hsign : [.delim '~', .word hi].foldrM Clause.pushToken items =
              .ok (.delim '~' :: .number hi :: items) := foldrM_cons_of_eq_ok hhi
          have htake := takeRange_eq_ok.mpr ⟨hi, Eq.refl (Item.number hi :: items),
            RangeClause.mk ha hb hle hlength⟩
          rw [foldrM_cons_of_eq_ok hsign, Clause.pushToken, htake]
          rfl

end Scan

end CallSuite.Clause
