import CallSuite.Proofs.Binary64.ReadBack
import CallSuite.Proofs.Value.Written
import Mathlib.Data.List.TakeWhile

namespace CallSuite

open CallSuite.Text

namespace Binary64

variable {x : Binary64}

theorem mem_signed {cs : List Char} {c : Char} (hc : c ∈ cs) : c ∈ (x.signed cs).toList := by
  rw [signed, String.toList_ofList]
  split
  · exact List.mem_cons_of_mem _ hc
  · exact hc

-- No number is written as an integer is.
theorem exists_mem_literal (h : x.isNaN = false) :
    ∃ c ∈ x.literal.toList, c ∈ ['.', 'e', 'i'] := by
  unfold literal
  rw [h, if_neg (by simp)]
  split
  next => exact ⟨'i', mem_signed (by simp), by simp⟩
  next =>
    split
    next => exact ⟨'e', mem_signed (by simp [Decimal.scientific]), by simp⟩
    next =>
      split
      next => exact ⟨'.', mem_signed (by simp), by simp⟩
      next =>
        refine ⟨'.', mem_signed ?_, by simp⟩
        unfold Decimal.pointed
        split
        next hneg =>
          obtain ⟨e, he⟩ := Int.eq_negSucc_of_lt_zero hneg
          obtain ⟨whole, fraction, hpositional, _⟩ := exists_positional he
          simp [hpositional]
        next => simp

theorem readInt?_literal (h : x.isNaN = false) : readInt? x.literal.toList = none := by
  obtain ⟨c, hc, hletter⟩ := exists_mem_literal h
  cases hread : readInt? x.literal.toList with
  | none => rfl
  | some i =>
      have hchar := sign_or_isDigit_of_readInt? hread c hc
      simp only [List.mem_cons, List.not_mem_nil, or_false] at hletter
      rcases hletter with rfl | rfl | rfl <;> exact absurd hchar (by decide)

end Binary64

namespace Value

-- No float at any depth is a NaN.
inductive NaNFree : Value → Prop where
  | bool : NaNFree (.bool b)
  | int : NaNFree (.int i)
  | float (hx : x.isNaN = false) : NaNFree (.float x)
  | str : NaNFree (.str s)
  | collection (hitems : ∀ v ∈ items, NaNFree v) : NaNFree (.collection c items)
  | dict (hkeys : ∀ e ∈ entries, NaNFree e.1) (hvalues : ∀ e ∈ entries, NaNFree e.2) :
      NaNFree (.dict entries)

-- The character that brackets or quotes open with, and that of the empty set. The other values are
-- written as one word.
def opening? : Value → Option Char
  | .str _ => some '\''
  | .collection .list _ => some '['
  | .collection .tuple _ => some '('
  | .collection .set [] => some 's'
  | .collection .set (_ :: _) => some '{'
  | .dict _ => some '{'
  | .bool _ | .int _ | .float _ => none

-- The value that a word is.
def readAtom? (cs : List Char) : Option Value :=
  if cs = ['T', 'r', 'u', 'e'] then some (.bool true)
  else if cs = ['F', 'a', 'l', 's', 'e'] then some (.bool false)
  else match readInt? cs with
    | some i => some (.int i)
    | none => (Binary64.read? cs).map .float

-- The word that a text starts with.
def word (cs : List Char) : List Char := cs.takeWhile IsNumeralChar

variable {v : Value}

theorem readAtom?_of_readInt? {cs : List Char} {i : Int} (h : readInt? cs = some i) :
    readAtom? cs = some (.int i) := by
  unfold readAtom?
  rw [if_neg, if_neg, h]
  · rintro rfl
    cases h
  · rintro rfl
    cases h

theorem readAtom?_of_read? {cs : List Char} {x : Binary64} (hint : readInt? cs = none)
    (h : Binary64.read? cs = some x) : readAtom? cs = some (.float x) := by
  unfold readAtom?
  rw [if_neg, if_neg, hint, h]
  · rfl
  · rintro rfl
    cases h
  · rintro rfl
    cases h

theorem word_eq_self {cs : List Char} (h : ∀ c ∈ cs, IsNumeralChar c) : word cs = cs :=
  List.takeWhile_eq_self_iff.mpr h

theorem word_cons {c : Char} (h : ¬IsNumeralChar c) (cs : List Char) : word (c :: cs) = [] :=
  List.takeWhile_cons_of_neg h

-- What has brackets or quotes starts with no word that is a value.
theorem readAtom?_word_chars (h : v.NaNFree) :
    readAtom? (word v.chars) = if v.opening? = none then some v else none := by
  cases h with
  | @bool b => cases b <;> rfl
  | @int i =>
      have hread := readInt?_toString i
      have htext : (int i).chars = (toString i).toList := by simp [chars, text, write]
      rw [htext, word_eq_self (isNumeralChar_of_readInt? hread), readAtom?_of_readInt? hread]
      rfl
  | @float x hx =>
      have hread := Binary64.read?_literal hx
      have htext : (float x).chars = x.literal.toList := by simp [chars, text, write]
      rw [htext, word_eq_self (Binary64.isNumeralChar_of_read? hread),
        readAtom?_of_read? (Binary64.readInt?_literal hx) hread]
      rfl
  | str =>
      rw [chars_str, quoted, word_cons (by decide)]
      rfl
  | @collection items c =>
      cases c with
      | list =>
          rw [chars_list, word_cons (by decide)]
          rfl
      | tuple =>
          rw [chars_tuple, word_cons (by decide)]
          rfl
      | set => cases items with
        | nil => rfl
        | cons v vs =>
            rw [chars_set, word_cons (by decide)]
            rfl
  | dict =>
      rw [chars_dict, word_cons (by decide)]
      rfl

end Value

end CallSuite
