import CallSuite.Proofs.Binary64.ReadBack
import CallSuite.Proofs.Binary64.Whole
import CallSuite.Proofs.Clause.Entry
import CallSuite.Proofs.Clause.Grammar
import CallSuite.Proofs.Text.Token
import CallSuite.Proofs.Tree.Domains

namespace CallSuite

open CallSuite.Text

namespace Clause

def delimiters : List Char := ['(', ':', '[', ']', ',', '~']

-- A list with a literal for each entry. The literals are any that are read to the entries.
def Lists (entry : Binary64 → Except DomainFault α) (ts : List Token) (ys : List α) : Prop :=
  ∃ xs, ListClause ts xs ∧ xs.map entry = ys.map .ok

-- A range that is written with its bounds.
inductive Spans : List Token → List Int → Prop where
  | mk (ha : readInt64? lo.toList = some a) (hb : readInt64? hi.toList = some b) (hle : a ≤ b)
      (hlength : b - a + 1 ≤ maxRangeLength) :
      Spans [.word lo, .delim '~', .word hi] (Int.range a (b + 1))

def Sizes (kind : Kind) (ts : List Token) (ys : List Nat) : Prop :=
  Lists (sizeEntry kind) ts ys ∨ Spans ts (ys.map Int.ofNat)

end Clause

open Clause

-- The tokens of a domain descriptor that says what the domains of a role are.
inductive Tree.Prints (role : Role) : Node → List Token → Prop where
  | int (h : Lists intEntry ts (d.get role).toList ∨ Spans ts (d.get role).toList) :
      Prints role (.int d) ts
  | bool (h : Lists boolEntry ts (d.get role).toList) : Prints role (.bool d) ts
  | float (h : ListClause ts (d.get role).toList) : Prints role (.float d) ts
  | str (h : Sizes .str ts (d.get role).toList) : Prints role (.str alphabet d) ts
  | collection (h : Sizes (.collection c) ts (d.get role).toList) (hitem : Prints role item us) :
      Prints role (.collection c d item) (ts ++ .delim '(' :: us)
  | dict (h : Sizes .dict ts (d.get role).toList) (hkey : Prints role key us)
      (hvalue : Prints role value vs) :
      Prints role (.dict d key value) (ts ++ .delim '(' :: (us ++ .delim ':' :: vs))

def Tree.DomainText (role : Role) (node : Node) (text : String) : Prop :=
  ∃ ts, node.Prints role ts ∧ Token.Shows delimiters ts text.toList

-- No entry is there twice, and each is one that a clause can have.
def Domain.Listed (P : α → Prop) (d : Domain α) : Prop := d.toList.Nodup ∧ ∀ y ∈ d.toList, P y

-- No integer up to 2^53 is rounded.
def Tree.Listed (role : Role) (node : Node) : Prop :=
  node.All (fun d => (d.get role).Listed fun i => i.natAbs ≤ 2 ^ 53)
    (fun d => (d.get role).Listed fun _ => True)
    (fun d => (d.get role).Listed fun x => x.isNaN = false)
    (fun d => (d.get role).Listed (· ≤ maxRangeLength))

namespace Clause

section Entry

theorem intEntry_ofInt {i : Int} (hi : i.natAbs ≤ 2 ^ 53) :
    intEntry (Binary64.ofInt i) = .ok i := by
  rw [intEntry_eq_ok, Binary64.toInt?_ofInt hi, IsInt64]
  refine ⟨rfl, ?_⟩
  omega

theorem sizeEntry_ofInt {n : Nat} (hn : n ≤ maxRangeLength) (kind : Kind) :
    sizeEntry kind (Binary64.ofInt n) = .ok n := by
  rw [sizeEntry_eq_ok, Binary64.toInt?_ofInt]
  · exact ⟨rfl, hn⟩
  · simp only [maxRangeLength] at hn
    omega

theorem boolEntry_ofInt (b : Bool) : boolEntry (Binary64.ofInt b.toNat) = .ok b := by
  have hwhole : (Binary64.ofInt b.toNat).toInt? = some (b.toNat : Int) := by
    apply Binary64.toInt?_ofInt
    cases b <;> decide
  rw [boolEntry, hwhole]
  cases b <;> rfl

end Entry

section Entries

variable {α : Type} {entry : Binary64 → Except DomainFault α} {ts : List Token} {ys : List α}

theorem Lists.entries [BEq α] [LawfulBEq α] (h : Lists entry ts ys) (hys : ys.Nodup) :
    Entries entry ts ys := by
  obtain ⟨xs, hxs, hentry⟩ := h
  exact ⟨xs, .inl hxs, ys, hentry, (eraseDups_eq_self hys).symm⟩

theorem Spans.entries [BEq α] [LawfulBEq α] {whole : α → Int} (h : Spans ts (ys.map whole))
    (hentry : ∀ y ∈ ys, entry (Binary64.ofInt (whole y)) = .ok y) (hys : ys.Nodup) :
    Entries entry ts ys := by
  generalize hwhole : ys.map whole = is at h
  cases h with
  | mk ha hb hle hlength =>
      refine ⟨_, .inr (.mk ha hb hle hlength), ys, ?_, (eraseDups_eq_self hys).symm⟩
      rw [← hwhole, List.map_map, List.map_map]
      exact List.map_congr_left hentry

theorem Sizes.entries {kind : Kind} {d : Domain Nat} (h : Sizes kind ts d.toList)
    (hd : d.Listed (· ≤ maxRangeLength)) : Entries (sizeEntry kind) ts d.toList := by
  obtain ⟨hnodup, hsmall⟩ := hd
  obtain hlist | hspan := h
  · exact hlist.entries hnodup
  · exact hspan.entries (fun n hn => sizeEntry_ofInt (hsmall n hn) kind) hnodup

end Entries

end Clause

-- Decorating writes the domains of the role into the slots, whatever is in the others.
theorem Tree.Prints.written {role : Role} {node : Node} {ts : List Token} (h : node.Prints role ts)
    (hnode : node.Listed role) (f : {α : Type} → Domains α → Slots α) :
    Written role (node.map f) ts (node.map fun d => (f d).set (d.get role) role) := by
  induction h with
  | @int _ d h =>
      obtain ⟨hnodup, hsmall⟩ := hnode
      refine .int ?_ ⟨_, rfl, rfl⟩
      obtain hlist | hspan := h
      · exact hlist.entries hnodup
      · rw [← List.map_id (d.get role).toList] at hspan
        exact hspan.entries (fun i hi => intEntry_ofInt (hsmall i hi)) hnodup
  | bool h => exact .bool (h.entries hnode.1) ⟨_, rfl, rfl⟩
  | float h =>
      have hdenotes := Denotes.list h
      rw [eraseDups_eq_self hnode.1] at hdenotes
      exact .float hdenotes ⟨_, rfl, rfl⟩
  | str h => exact .str (h.entries hnode) ⟨_, rfl, rfl⟩
  | collection h _ ih =>
      exact .collection (h.entries hnode.1) ⟨_, rfl, rfl⟩ (ih hnode.2)
  | dict h _ _ ihk ihv =>
      exact .dict (h.entries hnode.1) ⟨_, rfl, rfl⟩ (ihk hnode.2.1) (ihv hnode.2.2)

namespace Clause

section Words

variable {w : String}

theorem isWord_of_read? {x : Binary64} (h : Binary64.read? w.toList = some x) :
    Token.IsWord delimiters w := by
  refine Token.isWord_of_isNumeralChar (by decide) ?_ (Binary64.isNumeralChar_of_read? h)
  intro hnil
  rw [hnil] at h
  cases h

theorem isWord_of_readInt64? {i : Int} (h : readInt64? w.toList = some i) :
    Token.IsWord delimiters w := by
  obtain ⟨j, hj, _⟩ := Option.bind_eq_some_iff.mp h
  refine Token.isWord_of_isNumeralChar (by decide) ?_ (isNumeralChar_of_readInt? hj)
  intro hnil
  rw [hnil] at hj
  cases hj

end Words

section Texts

variable {ts : List Token}

theorem Numbers.exists_shows {xs : List Binary64} (h : Numbers ts xs) :
    ∃ cs, Token.Shows delimiters ts cs := by
  induction h with
  | last hx =>
      have hclose : Token.Shows delimiters [.delim ']'] [']'] :=
        .delim (by decide) (by decide) .nil
      exact ⟨_, hclose.cons_word (isWord_of_read? hx) (by simp)⟩
  | cons hx _ ih =>
      obtain ⟨cs, hcs⟩ := ih
      have hcomma := Token.Shows.delim (c := ',') (by decide) (by decide) hcs
      exact ⟨_, hcomma.cons_word (isWord_of_read? hx) (by simp)⟩

theorem Lists.exists_shows {entry : Binary64 → Except DomainFault α} {ys : List α}
    (h : Lists entry ts ys) : ∃ cs, Token.Shows delimiters ts cs := by
  obtain ⟨xs, ⟨hnumbers⟩, _⟩ := h
  obtain ⟨cs, hcs⟩ := hnumbers.exists_shows
  exact ⟨_, .delim (by decide) (by decide) hcs⟩

theorem Spans.exists_shows {is : List Int} (h : Spans ts is) :
    ∃ cs, Token.Shows delimiters ts cs := by
  cases h with
  | mk ha hb _ _ =>
      have hhi := Token.Shows.nil.cons_word (isWord_of_readInt64? hb) (by simp)
      have hsign := Token.Shows.delim (c := '~') (by decide) (by decide) hhi
      exact ⟨_, hsign.cons_word (isWord_of_readInt64? ha) (by simp)⟩

theorem Sizes.exists_shows {kind : Kind} {ys : List Nat} (h : Sizes kind ts ys) :
    ∃ cs, Token.Shows delimiters ts cs := h.elim Lists.exists_shows Spans.exists_shows

end Texts

section Literals

theorem exists_numbers {xs : List Binary64} (hne : xs ≠ []) (h : ∀ x ∈ xs, x.isNaN = false) :
    ∃ ts, Numbers ts xs := by
  induction xs with
  | nil => exact absurd rfl hne
  | cons x xs ih =>
      obtain ⟨hx, hxs⟩ := List.forall_mem_cons.mp h
      have hread := Binary64.read?_literal hx
      by_cases hnil : xs = []
      · subst hnil
        exact ⟨_, .last hread⟩
      · obtain ⟨ts, hts⟩ := ih hnil hxs
        exact ⟨_, .cons hread hts⟩

-- An entry that comes from some number is written as the literal of that number.
theorem exists_lists (entry : Binary64 → Except DomainFault α) (d : Domain α)
    (h : ∀ y ∈ d.toList, ∃ x, x.isNaN = false ∧ entry x = .ok y) :
    ∃ ts, Lists entry ts d.toList := by
  have hxs : ∃ xs : List Binary64, (∀ x ∈ xs, x.isNaN = false) ∧
      xs.map entry = d.toList.map .ok := by
    generalize d.toList = ys at h
    induction ys with
    | nil => exact ⟨[], by simp, rfl⟩
    | cons y ys ih =>
        obtain ⟨⟨x, hx, hentry⟩, hys⟩ := List.forall_mem_cons.mp h
        obtain ⟨xs, hxs, hmap⟩ := ih hys
        exact ⟨x :: xs, List.forall_mem_cons.mpr ⟨hx, hxs⟩, by simp [hentry, hmap]⟩
  obtain ⟨xs, hnan, hmap⟩ := hxs
  have hne : xs ≠ [] := by
    rintro rfl
    exact d.toList_ne_nil (List.map_eq_nil_iff.mp hmap.symm)
  obtain ⟨ts, hts⟩ := exists_numbers hne hnan
  exact ⟨_, xs, .mk hts, hmap⟩

theorem isNaN_ofInt {i : Int} (hi : i.natAbs ≤ 2 ^ 53) : (Binary64.ofInt i).isNaN = false :=
  Binary64.isNaN_of_toInt? (Binary64.toInt?_ofInt hi)

theorem exists_sizes {kind : Kind} {d : Domain Nat} (h : d.Listed (· ≤ maxRangeLength)) :
    ∃ ts, Sizes kind ts d.toList := by
  obtain ⟨ts, hts⟩ := exists_lists (sizeEntry kind) d fun n hn => by
    have hsmall := h.2 n hn
    refine ⟨Binary64.ofInt n, isNaN_ofInt ?_, sizeEntry_ofInt hsmall kind⟩
    simp only [maxRangeLength] at hsmall
    omega
  exact ⟨ts, .inl hts⟩

end Literals

end Clause

namespace Tree

variable {role : Role} {node : Node} {ts : List Token}

theorem exists_prints (h : node.Listed role) : ∃ ts, node.Prints role ts := by
  induction node with
  | int d =>
      obtain ⟨ts, hts⟩ := exists_lists intEntry (d.get role) fun i hi =>
        ⟨_, isNaN_ofInt (h.2 i hi), intEntry_ofInt (h.2 i hi)⟩
      exact ⟨ts, .int (.inl hts)⟩
  | bool d =>
      obtain ⟨ts, hts⟩ := exists_lists boolEntry (d.get role) fun b _ =>
        ⟨_, isNaN_ofInt (by cases b <;> decide), boolEntry_ofInt b⟩
      exact ⟨ts, .bool hts⟩
  | float d =>
      obtain ⟨ts, hts⟩ := exists_numbers (d.get role).toList_ne_nil h.2
      exact ⟨_, .float (.mk hts)⟩
  | str alphabet d =>
      obtain ⟨ts, hts⟩ := exists_sizes h
      exact ⟨ts, .str hts⟩
  | collection c d item ih =>
      obtain ⟨hd, hitem⟩ := h
      obtain ⟨ts, hts⟩ := exists_sizes hd
      obtain ⟨us, hus⟩ := ih hitem
      exact ⟨_, .collection hts hus⟩
  | dict d key value ihk ihv =>
      obtain ⟨hd, hkey, hvalue⟩ := h
      obtain ⟨ts, hts⟩ := exists_sizes hd
      obtain ⟨us, hus⟩ := ihk hkey
      obtain ⟨vs, hvs⟩ := ihv hvalue
      exact ⟨_, .dict hts hus hvs⟩

theorem Prints.exists_shows (h : node.Prints role ts) :
    ∃ cs, Token.Shows delimiters ts cs := by
  induction h with
  | int h => exact h.elim Lists.exists_shows Spans.exists_shows
  | bool h => exact h.exists_shows
  | float h =>
      cases h with
      | mk h =>
          obtain ⟨cs, hcs⟩ := h.exists_shows
          exact ⟨_, .delim (by decide) (by decide) hcs⟩
  | str h => exact h.exists_shows
  | collection h _ ih =>
      obtain ⟨cs, hcs⟩ := h.exists_shows
      obtain ⟨ds, hds⟩ := ih
      exact ⟨_, hcs.append (.delim (c := '(') (by decide) (by decide) hds) (by simp)⟩
  | dict h _ _ ihk ihv =>
      obtain ⟨cs, hcs⟩ := h.exists_shows
      obtain ⟨ds, hds⟩ := ihk
      obtain ⟨es, hes⟩ := ihv
      have hcolon := Token.Shows.delim (c := ':') (by decide) (by decide) hes
      have hchildren := hds.append hcolon (by simp)
      exact ⟨_, hcs.append (.delim (c := '(') (by decide) (by decide) hchildren) (by simp)⟩

-- What a text prints is what it is split into.
theorem domainText_iff {text : String} :
    node.DomainText role text ↔ node.Prints role (Clause.tokens text) := by
  constructor
  · rintro ⟨ts, hts, hshows⟩
    rwa [← hshows.split_eq] at hts
  · exact fun h => ⟨_, h, Token.shows_split _ _⟩

theorem exists_domainText (h : node.Listed role) : ∃ text, node.DomainText role text := by
  obtain ⟨ts, hts⟩ := exists_prints h
  obtain ⟨cs, hcs⟩ := hts.exists_shows
  exact ⟨String.ofList cs, ts, hts, String.toList_ofList ▸ hcs⟩

end Tree

end CallSuite
