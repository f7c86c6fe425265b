import CallSuite.Proofs.Clause.Exact
import CallSuite.Proofs.Clause.Faults
import CallSuite.Proofs.Tree.Keeps

namespace CallSuite

open CallSuite.Text

-- The way down from a node to one of its children.
inductive Turn where
  | item
  | key
  | value
deriving DecidableEq

-- The node that is reached by these turns, with all that is below it.
def Tree.at? : List Turn → TypeTree → Option TypeTree
  | [], tree => some tree
  | .item :: path, .collection _ _ item => item.at? path
  | .key :: path, .dict _ key _ => key.at? path
  | .value :: path, .dict _ _ value => value.at? path
  | _, _ => none

-- What is wrong with a number in the clause of the node at the root. A float node takes every
-- number.
def Tree.fault? : TypeTree → Binary64 → Option DomainFault
  | .int _, x => Clause.intFault? x
  | .bool _, x => Clause.boolFault? x
  | .float _, _ => none
  | .str _ _, x => Clause.sizeFault? .str x
  | .collection c _ _, x => Clause.sizeFault? (.collection c) x
  | .dict _ _ _, x => Clause.sizeFault? .dict x

-- The slot has these numbers, and those that are equal once.
def Slots.HoldsNumbers [BEq α] (s : Slots α) (role : Role) (number : α → ℚ)
    (xs : List Binary64) : Prop :=
  ∃ (d : Domain α) (ys : List α), s.get role = some d ∧ d.toList = ys.eraseDups ∧
    ys.map number = xs.map Binary64.value

-- The node at the root has the numbers `xs` of its clause for a domain, where a float node has
-- what the scan leaves of them, bit for bit.
def Tree.HoldsNumbers (role : Role) (xs scanned : List Binary64) : TypeTree → Prop
  | .int s => s.HoldsNumbers role (fun i => i) xs
  | .bool s => s.HoldsNumbers role (fun b => if b then 1 else 0) xs
  | .float s => ∃ d, s.get role = some d ∧ d.toList = scanned
  | .str _ s | .collection _ s _ | .dict s _ _ => s.HoldsNumbers role (fun n => n) xs

namespace Clause

-- While the items are given out from the root on, the node at the end of the path gets to take
-- its clause off `below`.
inductive Reaches (role : Role) : TypeTree → List Item → List Turn → TypeTree → List Item → Prop
    where
  | here : Reaches role tree items [] tree items
  | item (hfill : fillSizes role (.collection c) s items = .ok (s', .delim '(' :: rest))
      (h : Reaches role item rest path node below) :
      Reaches role (.collection c s item) items (.item :: path) node below
  | key (hfill : fillSizes role .dict s items = .ok (s', .delim '(' :: rest))
      (h : Reaches role key rest path node below) :
      Reaches role (.dict s key value) items (.key :: path) node below
  | value (hfill : fillSizes role .dict s items = .ok (s', .delim '(' :: rest))
      (hkey : align role key rest = (key', .ok (.delim ':' :: after)))
      (h : Reaches role value after path node below) :
      Reaches role (.dict s key value) items (.value :: path) node below

section Reaches

variable {role : Role} {tree node : TypeTree} {items below : List Item} {path : List Turn}

-- What becomes of the node is seen in the tree, and where it is refused, so is the text.
theorem Reaches.align (h : Reaches role tree items path node below) :
    (align role tree items).1.at? path = some (Clause.align role node below).1 ∧
      ∀ e, (Clause.align role node below).2 = .error e →
        (Clause.align role tree items).2 = .error e := by
  have htake (c : Char) (rest : List Item) : takeDelim c (.delim c :: rest) = .ok rest :=
    takeDelim_eq_ok.mpr rfl
  induction h with
  | @here tree items => exact ⟨by cases tree <;> rfl, fun _ h => h⟩
  | item hfill h ih =>
      simp only [Clause.align, hfill, htake]
      exact ih
  | @key s items s' rest key path node below value hfill h ih =>
      obtain ⟨hat, herror⟩ := ih
      simp only [Clause.align, hfill, htake]
      -- the key is done with before the value is looked at, and what it was refused for stays
      rcases hkey : Clause.align role key rest with ⟨key', outcome⟩
      rw [hkey] at hat herror
      cases outcome with
      | error e => exact ⟨hat, herror⟩
      | ok after =>
          refine ⟨?_, fun e he => ?_⟩
          · dsimp only
            cases takeDelim ':' after <;> exact hat
          · cases herror e he
  | value hfill hkey h ih =>
      simp only [Clause.align, hfill, hkey, htake]
      exact ih

-- What is to the left of the node was read to the tokens in front of its clause.
theorem Reaches.reads {ts : List Token} (h : Reaches role tree items path node below)
    (hreads : Reads items ts) : ∃ us vs, ts = us ++ vs ∧ Reads below vs := by
  induction h generalizing ts with
  | here => exact ⟨[], ts, rfl, hreads⟩
  | item hfill _ ih | key hfill _ ih =>
      obtain ⟨us, _, _, rfl, _, _, hopen⟩ := hreads.fillDistinct hfill
      obtain ⟨_, rfl, hrest⟩ := hopen.delim_inv
      obtain ⟨ws, vs, rfl, hvs⟩ := ih hrest
      exact ⟨us ++ .delim '(' :: ws, vs, by simp, hvs⟩
  | value hfill hkey _ ih =>
      obtain ⟨us, _, _, rfl, _, _, hopen⟩ := hreads.fillDistinct hfill
      obtain ⟨_, rfl, hrest⟩ := hopen.delim_inv
      obtain ⟨ks, _, rfl, _, hcolon⟩ := hrest.align hkey
      obtain ⟨_, rfl, hafter⟩ := hcolon.delim_inv
      obtain ⟨ws, vs, rfl, hvs⟩ := ih hafter
      exact ⟨us ++ .delim '(' :: (ks ++ .delim ':' :: ws), vs, by simp, hvs⟩

end Reaches

section Node

variable {role : Role} {xs scanned : List Binary64} {rest : List Item}

-- The fault of the first number that the node refuses is the one reported, and no slot changes.
theorem align_eq_error {node : TypeTree} {e : DomainFault} (h : xs.findSome? node.fault? = some e)
    (role : Role) (rest : List Item) :
    align role node (.values xs :: rest) = (node, .error ((Item.values xs).text, e)) := by
  cases node with
  | int s => rw [align, intEntry_exact.fillDistinct_eq_error h]
  | bool s => rw [align, boolEntry_exact.fillDistinct_eq_error h]
  | float s =>
      obtain ⟨x, _, hx⟩ := List.exists_of_findSome?_eq_some h
      cases hx
  | str alphabet s => rw [align, fillSizes, (sizeEntry_exact .str).fillDistinct_eq_error h]
  | collection c s item =>
      rw [align, fillSizes, (sizeEntry_exact (.collection c)).fillDistinct_eq_error h]
  | dict s key value => rw [align, fillSizes, (sizeEntry_exact .dict).fillDistinct_eq_error h]

section Fill

variable {α : Type} [BEq α] [LawfulBEq α] [Hashable α] [Inhabited α]
  {entry : Binary64 → Except DomainFault α} {fault? : Binary64 → Option DomainFault}
  {number : α → ℚ} {s : Slots α}

-- The numbers of a list that the scan dropped would have been dropped as entries.
theorem Exact.exists_fillDistinct_holdsNumbers (h : Exact entry fault? number)
    (haccepted : scanned.findSome? fault? = none) (hne : scanned ≠ []) (hs : s.get role = none)
    (hscanned : scanned = xs ∨ scanned = xs.eraseDups) (kind : Kind) (rest : List Item) :
    ∃ s', fillDistinct role kind entry s (.values scanned :: rest) = .ok (s', rest) ∧
      s'.HoldsNumbers role number xs := by
  obtain ⟨s', ys, hfill, hs', hys⟩ :=
    h.exists_fillDistinct_eq_ok haccepted hne hs kind rest
  have hxs : Converts entry xs ys := by
    obtain rfl | rfl := hscanned
    · exact hys
    · exact converts_eraseDups.mp hys
  obtain ⟨d, rfl, hd⟩ := hs'.exists_get
  obtain ⟨zs, hzs, hdistinct⟩ := hxs
  exact ⟨s', hfill, d, zs, hd, hdistinct, h.map_value_eq hzs⟩

end Fill

section Root

variable {s s' : Slots Nat} {items rest : List Item}

-- The root keeps its domain, also where something is wrong further down.
theorem exists_align_collection {c : Collection}
    (hfill : fillSizes role (.collection c) s items = .ok (s', rest)) (item : TypeTree) :
    ∃ item', (align role (.collection c s item) items).1 = .collection c s' item' := by
  unfold align
  rw [hfill]
  dsimp only
  split
  · exact ⟨item, rfl⟩
  · exact ⟨_, rfl⟩

theorem exists_align_dict (hfill : fillSizes role .dict s items = .ok (s', rest))
    (key value : TypeTree) :
    ∃ key' value', (align role (.dict s key value) items).1 = .dict s' key' value' := by
  unfold align
  rw [hfill]
  dsimp only
  split
  · exact ⟨key, value, rfl⟩
  · split
    · exact ⟨_, value, rfl⟩
    · split
      · exact ⟨_, value, rfl⟩
      · exact ⟨_, _, rfl⟩

end Root

theorem eq_none_of_head {β : Type} {o : Option β} {filled : List Bool}
    (h : (o.isSome :: filled).head? ≠ some true) : o = none := by
  simpa using h

theorem holdsNumbers_align {node : TypeTree} (h : scanned.findSome? node.fault? = none)
    (hne : scanned ≠ []) (hfree : ¬ node.RootFilled role)
    (hscanned : scanned = xs ∨ scanned = xs.eraseDups) :
    (align role node (.values scanned :: rest)).1.HoldsNumbers role xs scanned := by
  cases node with
  | int s =>
      have hs : s.get role = none := eq_none_of_head hfree
      obtain ⟨s', hfill, hs'⟩ :=
        intEntry_exact.exists_fillDistinct_holdsNumbers h hne hs hscanned .int rest
      rw [align, hfill]
      exact hs'
  | bool s =>
      have hs : s.get role = none := eq_none_of_head hfree
      obtain ⟨s', hfill, hs'⟩ :=
        boolEntry_exact.exists_fillDistinct_holdsNumbers h hne hs hscanned .bool rest
      rw [align, hfill]
      exact hs'
  | float s =>
      have hs : s.get role = none := eq_none_of_head hfree
      obtain ⟨s', hs'⟩ := s.exists_fills role hne
      have hfill : fill role .float .ok s (.values scanned :: rest) = .ok (s', rest) :=
        fill_eq_ok.mpr ⟨scanned, scanned, rfl, rfl, hs, hs'⟩
      obtain ⟨d, hd, hget⟩ := hs'.exists_get
      rw [align, hfill]
      exact ⟨d, hget, hd⟩
  | str alphabet s =>
      have hs : s.get role = none := eq_none_of_head hfree
      obtain ⟨s', hfill, hs'⟩ :=
        (sizeEntry_exact .str).exists_fillDistinct_holdsNumbers h hne hs hscanned .str rest
      rw [align, fillSizes, hfill]
      exact hs'
  | collection c s item =>
      have hs : s.get role = none := eq_none_of_head hfree
      obtain ⟨s', hfill, hs'⟩ := (sizeEntry_exact (.collection c)).exists_fillDistinct_holdsNumbers
        h hne hs hscanned (.collection c) rest
      obtain ⟨item', hroot⟩ := exists_align_collection hfill item
      rw [hroot]
      exact hs'
  | dict s key value =>
      have hs : s.get role = none := eq_none_of_head hfree
      obtain ⟨s', hfill, hs'⟩ :=
        (sizeEntry_exact .dict).exists_fillDistinct_holdsNumbers h hne hs hscanned .dict rest
      obtain ⟨key', value', hroot⟩ := exists_align_dict hfill key value
      rw [hroot]
      exact hs'

end Node

end Clause

namespace TypeTree

open Clause

variable {role : Role} {tree node : TypeTree} {text : String} {items rest : List Item}
  {path : List Turn} {scanned : List Binary64}

-- What was scanned is the clause of a domain, and no check tells it from what stands in the text.
theorem exists_clause_of_reaches (hitems : itemsOf (Clause.tokens text) = .ok items)
    (hreaches : Reaches role tree items path node (.values scanned :: rest)) :
    ∃ us xs, us <:+: Clause.tokens text ∧
      (ListClause us xs ∧ scanned = xs.eraseDups ∨ RangeClause us xs ∧ scanned = xs) ∧
      scanned ≠ [] ∧
      ∀ fault? : Binary64 → Option DomainFault, scanned.findSome? fault? = xs.findSome? fault? := by
  have hreads : Reads items (Clause.tokens text) := by
    simpa using Reads.nil.foldrM hitems
  obtain ⟨before, _, hts, hclause⟩ := hreaches.reads hreads
  cases hclause with
  | @values us _ _ vs hdenotes _ =>
      have hinfix : us <:+: Clause.tokens text :=
        ⟨before, vs, by rw [hts, List.append_assoc]⟩
      have hne := hdenotes.ne_nil
      cases hdenotes with
      | @list xs h =>
          exact ⟨us, xs, hinfix, .inl ⟨h, rfl⟩, hne, fun _ => findSome?_eraseDups _ xs⟩
      | range h => exact ⟨us, scanned, hinfix, .inr ⟨h, rfl⟩, hne, fun _ => rfl⟩

theorem decorate_eq_error_of_reaches {e : DomainFault}
    (hitems : itemsOf (Clause.tokens text) = .ok items)
    (hreaches : Reaches role tree items path node (.values scanned :: rest))
    (hfault : scanned.findSome? node.fault? = some e) :
    (tree.decorate role text).2 = .error ⟨text, role, (Item.values scanned).text, e⟩ ∧
      (tree.decorate role text).1.at? path = some node := by
  obtain ⟨hat, herror⟩ := hreaches.align
  rw [align_eq_error hfault role rest] at hat herror
  rw [decorate_of_scan hitems, herror _ rfl]
  exact ⟨rfl, hat⟩

-- Each check takes the numbers that its kind can hold, of all bit patterns, and changes none.
-- What a node makes of its clause, wherever the node is: the first number that it refuses, in the
-- order of the text, is the one reported, and otherwise it has the numbers themselves.
theorem clause_numbers_exact :
    (∀ x i, intEntry x = .ok i ↔ x.isFinite ∧ x.value = i ∧ -2 ^ 63 ≤ i ∧ i < 2 ^ 63) ∧
    (∀ x b, boolEntry x = .ok b ↔ x.isFinite ∧ x.value = if b then 1 else 0) ∧
    (∀ kind x n, sizeEntry kind x = .ok n ↔ x.isFinite ∧ x.value = n ∧ n ≤ maxRangeLength) ∧
    (∀ x e, (intEntry x = .error e ↔ intFault? x = some e) ∧
      (boolEntry x = .error e ↔ boolFault? x = some e) ∧
      ∀ kind, sizeEntry kind x = .error e ↔ sizeFault? kind x = some e) ∧
    ∀ (role : Role) (tree : TypeTree) (text : String) (items : List Item) (path : List Turn)
      (node : TypeTree) (scanned : List Binary64) (rest : List Item),
      itemsOf (Clause.tokens text) = .ok items →
      Reaches role tree items path node (.values scanned :: rest) →
      ∃ us xs, us <:+: Clause.tokens text ∧
        (ListClause us xs ∧ scanned = xs.eraseDups ∨ RangeClause us xs ∧ scanned = xs) ∧
        (∀ e, xs.findSome? node.fault? = some e →
          (tree.decorate role text).2 = .error ⟨text, role, (Item.values scanned).text, e⟩ ∧
          (tree.decorate role text).1.at? path = some node) ∧
        (xs.findSome? node.fault? = none → ¬ node.RootFilled role →
          ∃ node', (tree.decorate role text).1.at? path = some node' ∧
            node'.HoldsNumbers role xs scanned) := by
  refine ⟨fun x i => ?_, fun x b => ?_, fun kind x n => ?_, fun x e => ⟨intEntry_exact.error_iff,
    boolEntry_exact.error_iff, fun kind => (sizeEntry_exact kind).error_iff⟩, ?_⟩
  · rw [intEntry_eq_ok, Binary64.toInt?_eq_some_iff, and_assoc, IsInt64]
    norm_num
  · rw [boolEntry_eq_ok, Binary64.toInt?_eq_some_iff]
    cases b <;> simp
  · rw [sizeEntry_eq_ok, Binary64.toInt?_eq_some_iff, and_assoc]
    norm_cast
  · intro role tree text items path node scanned rest hitems hreaches
    obtain ⟨us, xs, hinfix, hxs, hne, hfirst⟩ := exists_clause_of_reaches hitems hreaches
    refine ⟨us, xs, hinfix, hxs, fun e he => ?_, fun haccepted hfree => ?_⟩
    · exact decorate_eq_error_of_reaches hitems hreaches ((hfirst _).trans he)
    · have hat := hreaches.align.1
      have hscanned : scanned = xs ∨ scanned = xs.eraseDups :=
        hxs.symm.imp And.right And.right
      rw [decorate_of_scan hitems]
      exact ⟨_, hat, holdsNumbers_align ((hfirst _).trans haccepted) hne hfree hscanned⟩

-- The sizes are taken, and so is the first of the items. The second is refused before the third.
theorem clause_numbers_listOfInt : ∃ items scanned,
    itemsOf (Clause.tokens "[-0,2]([1,2.5,inf]") = .ok items ∧
    Reaches .random (.collection .list .empty (.int .empty)) items [.item] (.int .empty)
      [.values scanned] ∧
    (decorate (.collection .list .empty (.int .empty)) .random "[-0,2]([1,2.5,inf]").2 =
      .error ⟨"[-0,2]([1,2.5,inf]", .random, (Item.values scanned).text,
        .notIntegral .int ⟨0x4004000000000000⟩⟩ ∧
    (decorate (.collection .list .empty (.int .empty)) .random "[-0,2]([1,2.5,inf]").1.at? [.item] =
      some (.int .empty) := by
  have hnegative : Binary64.read? "-0".toList = some ⟨0x8000000000000000⟩ := by decide
  have hone : Binary64.read? "1".toList = some ⟨0x3ff0000000000000⟩ := by decide +kernel
  have htwo : Binary64.read? "2".toList = some ⟨0x4000000000000000⟩ := by decide +kernel
  have hhalf : Binary64.read? "2.5".toList = some ⟨0x4004000000000000⟩ := by decide +kernel
  have hinf : Binary64.read? "inf".toList = some ⟨0x7ff0000000000000⟩ := by decide
  have hitem := Denotes.list (.mk (.cons hone (.cons hhalf (.last hinf))))
  have hsizes := Denotes.list (.mk (.cons hnegative (.last htwo)))
  have hend : ([] : List Item).head? ≠ some (.delim '~') := by simp
  have hbelow := hitem.foldrM hend
  have hopen := foldrM_cons_of_eq_ok (t := .delim '(') hbelow
  have hscan := (foldrM_append_of_eq_ok hopen).trans (hsizes.foldrM (by simp))
  have htokens : Clause.tokens "[-0,2]([1,2.5,inf]" =
      [.delim '[', .word "-0", .delim ',', .word "2", .delim ']'] ++ .delim '(' ::
        [.delim '[', .word "1", .delim ',', .word "2.5", .delim ',', .word "inf", .delim ']'] := by
    cbv
  have hitems := (congrArg itemsOf htokens).trans hscan
  have haccepted : [⟨0x8000000000000000⟩, ⟨0x4000000000000000⟩].eraseDups.findSome?
      (sizeFault? (.collection .list)) = none := by decide +kernel
  obtain ⟨_, _, hfill, _⟩ := (sizeEntry_exact (.collection .list)).exists_fillDistinct_eq_ok
    haccepted hsizes.ne_nil (Slots.get_empty .random) (.collection .list)
    (.delim '(' :: [.values _])
  have hreaches : Reaches .random (.collection .list .empty (.int .empty)) _ [.item] _ _ :=
    .item hfill .here
  obtain ⟨_, _, _, _, hexact⟩ := clause_numbers_exact
  obtain ⟨_, xs, _, hxs, hrefused, _⟩ := hexact _ _ _ _ _ _ _ _ hitems hreaches
  have hscanned : [⟨0x3ff0000000000000⟩, ⟨0x4004000000000000⟩,
      ⟨0x7ff0000000000000⟩].eraseDups.findSome? (Tree.fault? (.int .empty)) =
        some (.notIntegral .int ⟨0x4004000000000000⟩) := by decide +kernel
  have hfirst : xs.findSome? (Tree.fault? (.int .empty)) =
      some (.notIntegral .int ⟨0x4004000000000000⟩) := by
    obtain ⟨_, heq⟩ | ⟨_, heq⟩ := hxs
    · rw [← findSome?_eraseDups, ← heq, hscanned]
    · rw [← heq, hscanned]
  exact ⟨_, _, hitems, hreaches, hrefused _ hfirst⟩

end TypeTree

end CallSuite
