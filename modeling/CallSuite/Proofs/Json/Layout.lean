import CallSuite.Proofs.Json.Number
import CallSuite.Proofs.Json.Written
import Mathlib.Data.List.Chain

namespace CallSuite.Json

open JsonNumber Text

def marks : List Char := ['[', ']', '{', '}', ':', ',']

theorem not_isSpace_of_mem_marks : ∀ c ∈ marks, isSpace c = false := by
  simp [marks, isSpace]

theorem not_continues_of_mem_marks : ∀ c ∈ marks, ¬ Continues c := by
  simp [marks, Continues]

theorem not_continues_of_isSpace {c : Char} (hc : isSpace c) : ¬ Continues c := by
  simp only [isSpace, Bool.or_eq_true, decide_eq_true_eq] at hc
  rcases hc with ((rfl | rfl) | rfl) | rfl <;> decide

-- What is taken from a text as it was written.
inductive Lexeme.Exact : Lexeme → Prop
  | mark {c} (hc : c ∈ marks) : Exact (.mark c)
  | null : Exact (.scalar .null)
  | bool (b : Bool) : Exact (.scalar (.bool b))
  | integer {i} (hi : IsWord64 i) : Exact (.scalar (.number (.integer i)))
  | str (s : String) : Exact (.scalar (.str s))

-- Two numbers in a row would be one.
def Lexeme.Apart (x y : Lexeme) : Prop := (∃ c, x = .mark c) ∨ ∃ c, y = .mark c

section Lexemes

variable {x : Lexeme} {xs done : List Lexeme} {cs rest : List Char}

theorem takeLexeme?_numeral {c : Char} (hc : c = '-' ∨ c.isDigit) (cs : List Char) :
    takeLexeme? (c :: cs) =
      (JsonNumber.take? (c :: cs)).map fun (n, cs) => (.scalar (.number n), cs) := by
  unfold takeLexeme?
  split
  next heq => cases heq
  next heq => cases heq; simp at hc
  next heq => cases heq; simp at hc
  next heq => cases heq; simp at hc
  next heq => cases heq; simp at hc
  next heq =>
    cases heq
    rw [if_neg]
    intro hmark
    simp at hmark
    rcases hmark with rfl | rfl | rfl | rfl | rfl | rfl <;> simp at hc

theorem takeLexeme?_integer {i : Int} (hi : IsWord64 i)
    (hrest : ∀ c ∈ rest.head?, ¬ Continues c) :
    takeLexeme? ((toString i).toList ++ rest) = some (.scalar (.number (.integer i)), rest) := by
  obtain ⟨c, cs, htext, hc⟩ := exists_toString_eq_cons i
  have htake := take?_integer hi hrest
  rw [htext, List.cons_append] at htake ⊢
  rw [takeLexeme?_numeral hc, htake]
  rfl

theorem takeLexeme?_chars (hx : x.Exact)
    (hrest : (∃ c, x = .mark c) ∨ ∀ c ∈ rest.head?, ¬ Continues c) :
    takeLexeme? (x.chars ++ rest) = some (x, rest) := by
  cases hx with
  | mark hc =>
      simp only [marks, List.mem_cons, List.not_mem_nil, or_false] at hc
      rcases hc with rfl | rfl | rfl | rfl | rfl | rfl <;> rfl
  | null => rfl
  | bool b => cases b <;> rfl
  | integer hi =>
      obtain ⟨_, ⟨⟩⟩ | hrest := hrest
      exact takeLexeme?_integer hi hrest
  | str s =>
      rw [chars_str, List.cons_append, takeLexeme?, List.append_assoc, List.singleton_append,
        takeString?_quoted]
      simp

theorem Lexeme.Exact.exists_chars_eq_cons (hx : x.Exact) :
    ∃ c cs, x.chars = c :: cs ∧ isSpace c = false := by
  cases hx with
  | @mark c hc => exact ⟨c, [], rfl, not_isSpace_of_mem_marks c hc⟩
  | null => exact ⟨'n', ['u', 'l', 'l'], rfl, rfl⟩
  | bool b => cases b with
    | true => exact ⟨'t', ['r', 'u', 'e'], rfl, rfl⟩
    | false => exact ⟨'f', ['a', 'l', 's', 'e'], rfl, rfl⟩
  | @integer i hi =>
      obtain ⟨c, cs, htext, hc⟩ := exists_toString_eq_cons i
      refine ⟨c, cs, htext, ?_⟩
      by_contra hspace
      simp only [isSpace, Bool.not_eq_false, Bool.or_eq_true, decide_eq_true_eq] at hspace
      rcases hspace with ((rfl | rfl) | rfl) | rfl <;> simp at hc
  | str s => exact ⟨'"', _, chars_str s, rfl⟩

theorem lexemesFrom?_of_space (hspace : ∀ c ∈ cs, isSpace c) :
    lexemesFrom? done cs = some done.reverse := by
  have hdrop : cs.dropWhile isSpace = [] := List.dropWhile_eq_nil_iff.mpr hspace
  rw [lexemesFrom?]
  split
  next => rfl
  next heq => rw [hdrop] at heq; cases heq

theorem lexemesFrom?_chars {blanks : List Char} (hblanks : ∀ c ∈ blanks, isSpace c) (hx : x.Exact)
    (hrest : (∃ c, x = .mark c) ∨ ∀ c ∈ rest.head?, ¬ Continues c) :
    lexemesFrom? done (blanks ++ (x.chars ++ rest)) = lexemesFrom? (x :: done) rest := by
  have htake := takeLexeme?_chars hx hrest
  obtain ⟨c, cs, hchars, hc⟩ := hx.exists_chars_eq_cons
  have hdrop : (blanks ++ (x.chars ++ rest)).dropWhile isSpace = x.chars ++ rest := by
    rw [List.dropWhile_append_of_pos hblanks, hchars]
    exact List.dropWhile_cons_of_neg (by simp [hc])
  rw [lexemesFrom?]
  split
  next heq => rw [hdrop, hchars] at heq; cases heq
  next heq =>
    rw [hdrop] at heq
    rw [← heq]
    split
    next hnone => rw [htake] at hnone; cases hnone
    next hsome => rw [htake] at hsome; cases hsome; rfl

-- Neither white space nor a mark goes on with a number.
theorem Layout.stops (h : Layout xs cs)
    (hxs : ∀ x ∈ xs.head?, x.Exact ∧ ∃ c, x = .mark c) : ∀ c ∈ cs.head?, ¬ Continues c := by
  cases h with
  | nil hblanks =>
      exact fun c hc => not_continues_of_isSpace (hblanks c (List.mem_of_mem_head? hc))
  | @cons blanks _ _ _ hblanks _ =>
      cases blanks with
      | cons b blanks =>
          rintro c ⟨⟩
          exact not_continues_of_isSpace (hblanks b (by simp))
      | nil =>
          obtain ⟨⟨hc⟩, c, ⟨⟩⟩ := hxs _ rfl
          rintro _ ⟨⟩
          exact not_continues_of_mem_marks _ hc

-- Lexemes that a text keeps, however few blanks stand between them.
structure Kept (xs : List Lexeme) : Prop where
  each : ∀ x ∈ xs, x.Exact
  apart : xs.IsChain Lexeme.Apart

-- What may follow a scalar.
structure Closing (xs : List Lexeme) : Prop extends Kept xs where
  head : ∀ x ∈ xs.head?, ∃ c, x = .mark c

theorem Closing.nil : Closing [] := ⟨⟨by simp, .nil⟩, by simp⟩

theorem Kept.mark {c : Char} (h : Kept xs) (hc : c ∈ marks) : Closing (.mark c :: xs) := by
  refine ⟨⟨List.forall_mem_cons.mpr ⟨.mark hc, h.each⟩, ?_⟩, by simp⟩
  exact List.isChain_cons.mpr ⟨fun _ _ => .inl ⟨c, rfl⟩, h.apart⟩

theorem Closing.scalar {v : Json} (h : Closing xs) (hv : (Lexeme.scalar v).Exact) :
    Kept (.scalar v :: xs) where
  each := List.forall_mem_cons.mpr ⟨hv, h.each⟩
  apart := List.isChain_cons.mpr ⟨fun y hy => .inr (h.head y hy), h.apart⟩

theorem Kept.tail (h : Kept (x :: xs)) : Kept xs :=
  ⟨fun y hy => h.each y (.tail _ hy), h.apart.tail⟩

theorem lexemesFrom?_of_layout (h : Layout xs cs) (hkept : Kept xs) :
    lexemesFrom? done cs = some (done.reverse ++ xs) := by
  induction h generalizing done with
  | nil hblanks => rw [lexemesFrom?_of_space hblanks, List.append_nil]
  | @cons _ cs x xs hblanks hlayout ih =>
      have hrest : (∃ c, x = .mark c) ∨ ∀ c ∈ cs.head?, ¬ Continues c := by
        by_cases hmark : ∃ c, x = .mark c
        · exact .inl hmark
        · refine .inr (hlayout.stops fun y hy => ?_)
          have hapart := (List.isChain_cons.mp hkept.apart).1 y hy
          exact ⟨hkept.tail.each y (List.mem_of_mem_head? hy), hapart.resolve_left hmark⟩
      rw [lexemesFrom?_chars hblanks (hkept.each x (by simp)) hrest, ih hkept.tail]
      simp

end Lexemes

end CallSuite.Json
