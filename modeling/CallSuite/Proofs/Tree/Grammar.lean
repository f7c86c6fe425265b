import CallSuite.Proofs.Ordered
import CallSuite.Proofs.Scanning
import CallSuite.Proofs.Tree.Slots
import CallSuite.Tree.OfText
import Mathlib.Data.List.Chain

namespace CallSuite.TypeTree

open CallSuite.Text

def keywords : List String := ["int", "bool", "float", "str", "list", "tuple", "set", "dict"]

-- The token grammar of type descriptors, with the tree of each derivation. A literal is a word
-- that is no keyword.
inductive Derives : List Token → TypeTree → Prop where
  | int : Derives [.word "int"] (.int .empty)
  | bool : Derives [.word "bool"] (.bool .empty)
  | float : Derives [.word "float"] (.float .empty)
  | str (hs : s ∉ keywords) (halphabet : ∀ c, c ∈ alphabet ↔ c ∈ s.toList) :
      Derives [.word "str", .delim '(', .word s] (.str alphabet .empty)
  | collection (c : Collection) (hitem : Derives ts item) :
      Derives (.word c.name :: .delim '(' :: ts) (.collection c .empty item)
  | dict (hkey : Derives ks key) (hvalue : Derives vs value) :
      Derives (.word "dict" :: .delim '(' :: (ks ++ .delim ':' :: vs)) (.dict .empty key value)

-- The stack of the scan spells out the tokens that it was read from.
inductive Spelled : List Operand → List Token → Prop where
  | nil : Spelled [] []
  | delim (h : Spelled stack ts) : Spelled (.delim c :: stack) (.delim c :: ts)
  | literal (hs : s ∉ keywords) (h : Spelled stack ts) :
      Spelled (.literal s :: stack) (.word s :: ts)
  | type (ht : Derives us t) (h : Spelled stack ts) : Spelled (.type t :: stack) (us ++ ts)

section Scan

variable {word : String} {stack rest : List Operand} {ts : List Token}

theorem popDelim_eq_ok {c : Char} :
    popDelim word c stack = .ok rest ↔ stack = .delim c :: rest := by
  unfold popDelim
  split
  · simp
  · split <;> simp_all
  · simp_all

theorem popType_eq_ok {t : TypeTree} :
    popType word stack = .ok (t, rest) ↔ stack = .type t :: rest := by
  unfold popType
  split <;> simp_all

theorem popCharset_eq_ok {s : String} :
    popCharset word stack = .ok (s, rest) ↔ stack = .literal s :: rest := by
  unfold popCharset
  split <;> simp_all

theorem pushCollection_eq_ok {c : Collection} :
    pushCollection word c stack = .ok rest ↔
      ∃ item below, stack = .delim '(' :: .type item :: below ∧
        rest = .type (.collection c .empty item) :: below := by
  simp only [pushCollection, bind_eq_ok, popDelim_eq_ok, Prod.exists, popType_eq_ok, pure,
    Except.pure, Except.ok.injEq]
  constructor
  · rintro ⟨_, rfl, item, below, rfl, rfl⟩
    exact ⟨item, below, rfl, rfl⟩
  · rintro ⟨item, below, rfl, rfl⟩
    exact ⟨_, rfl, item, below, rfl, rfl⟩

theorem Spelled.delim_inv {c : Char} (h : Spelled (.delim c :: stack) ts) :
    ∃ us, ts = .delim c :: us ∧ Spelled stack us := by
  cases h with
  | delim h => exact ⟨_, rfl, h⟩

theorem Spelled.literal_inv {s : String} (h : Spelled (.literal s :: stack) ts) :
    s ∉ keywords ∧ ∃ us, ts = .word s :: us ∧ Spelled stack us := by
  cases h with
  | literal hs h => exact ⟨hs, _, rfl, h⟩

theorem Spelled.type_inv {t : TypeTree} (h : Spelled (.type t :: stack) ts) :
    ∃ us vs, ts = us ++ vs ∧ Derives us t ∧ Spelled stack vs := by
  cases h with
  | type ht h => exact ⟨_, _, rfl, ht, h⟩

theorem Spelled.collection (c : Collection) (h : Spelled stack ts)
    (hpush : pushCollection word c stack = .ok rest) : Spelled rest (.word c.name :: ts) := by
  obtain ⟨item, below, rfl, rfl⟩ := pushCollection_eq_ok.mp hpush
  obtain ⟨_, rfl, hopen⟩ := h.delim_inv
  obtain ⟨_, _, rfl, hitem, hbelow⟩ := hopen.type_inv
  exact .type (.collection c hitem) hbelow

-- A keyword makes one derivation of those it takes off the stack.
theorem Spelled.push {token : Token} (h : Spelled stack ts) (hpush : push token stack = .ok rest) :
    Spelled rest (token :: ts) := by
  unfold TypeTree.push at hpush
  split at hpush
  · cases hpush
    exact .delim h
  · cases hpush
    exact .type .int h
  · cases hpush
    exact .type .bool h
  · cases hpush
    exact .type .float h
  · exact h.collection .list hpush
  · exact h.collection .tuple hpush
  · exact h.collection .set hpush
  · simp only [bind_eq_ok, popDelim_eq_ok, Prod.exists, popType_eq_ok, pure, Except.pure,
      Except.ok.injEq] at hpush
    obtain ⟨_, rfl, key, _, rfl, _, rfl, value, below, rfl, rfl⟩ := hpush
    obtain ⟨_, rfl, hopen⟩ := h.delim_inv
    obtain ⟨_, _, rfl, hkey, hafter⟩ := hopen.type_inv
    obtain ⟨_, rfl, hcolon⟩ := hafter.delim_inv
    obtain ⟨_, _, rfl, hvalue, hbelow⟩ := hcolon.type_inv
    simpa using Spelled.type (.dict hkey hvalue) hbelow
  · simp only [bind_eq_ok, popDelim_eq_ok, Prod.exists, popCharset_eq_ok, pure, Except.pure,
      Except.ok.injEq] at hpush
    obtain ⟨_, rfl, s, below, rfl, rfl⟩ := hpush
    obtain ⟨_, rfl, hopen⟩ := h.delim_inv
    obtain ⟨hs, _, rfl, hbelow⟩ := hopen.literal_inv
    exact .type (.str hs fun c => OrderedSet.mem_ofList) hbelow
  · cases hpush
    exact .literal (by simp_all [keywords]) h

theorem Spelled.foldrM {us : List Token} (h : Spelled stack ts)
    (hscan : us.foldrM TypeTree.push stack = .ok rest) : Spelled rest (us ++ ts) :=
  foldrM_invariant (fun _ _ _ _ h hpush => h.push hpush) h hscan

-- Whatever stands to the right, the tokens of a derivation leave its tree on top of it.
theorem Derives.foldrM_push {t : TypeTree} (h : Derives ts t) (stack : List Operand) :
    ts.foldrM TypeTree.push stack = .ok (.type t :: stack) := by
  induction h generalizing stack with
  | int => rfl
  | bool => rfl
  | float => rfl
  | @str s alphabet hs halphabet =>
      obtain rfl := OrderedSet.eq_ofList_iff.mpr halphabet
      have hword : TypeTree.push (.word s) stack = .ok (.literal s :: stack) := by
        unfold TypeTree.push
        split <;> simp_all [keywords]
      have hliteral : [Token.word s].foldrM TypeTree.push stack = .ok (.literal s :: stack) :=
        (foldrM_cons_of_eq_ok rfl).trans hword
      rw [foldrM_cons_of_eq_ok (foldrM_cons_of_eq_ok hliteral)]
      rfl
  | collection c _ ih =>
      rw [foldrM_cons_of_eq_ok (foldrM_cons_of_eq_ok (ih stack))]
      cases c <;> rfl
  | @dict ks key vs value _ _ ihk ihv =>
      have hcolon : (.delim ':' :: vs).foldrM TypeTree.push stack =
          .ok (.delim ':' :: .type value :: stack) := foldrM_cons_of_eq_ok (ihv stack)
      have hopen := (foldrM_append_of_eq_ok hcolon).trans (ihk _)
      rw [foldrM_cons_of_eq_ok (foldrM_cons_of_eq_ok hopen)]
      rfl

end Scan

theorem ofTokens_eq_ok_iff {ts : List Token} {t : TypeTree} :
    ofTokens ts = .ok t ↔ Derives ts t := by
  rw [ofTokens, bind_eq_ok]
  constructor
  · rintro ⟨stack, hscan, hfinish⟩
    have hspelled := Spelled.nil.foldrM hscan
    unfold finish at hfinish
    split at hfinish <;> cases hfinish
    obtain ⟨us, vs, heq, ht, hnil⟩ := hspelled.type_inv
    cases hnil
    simp only [List.append_nil] at heq
    exact heq ▸ ht
  · intro h
    exact ⟨[.type t], h.foldrM_push [], rfl⟩

end CallSuite.TypeTree
