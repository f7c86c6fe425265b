import CallSuite.Proofs.Text.Numeral
import CallSuite.Text.Token
import Mathlib.Data.List.DropRight
import Mathlib.Data.List.TakeWhile

namespace CallSuite.Text

-- Text that neither starts nor ends with white space.
structure Trimmed (cs : List Char) : Prop where
  ne_nil : cs ≠ []
  first : ∀ c ∈ cs.head?, isBlank c = false
  last : ∀ c ∈ cs.getLast?, isBlank c = false

section Trim

variable {cs blanks : List Char} {c : Char}

theorem trim_eq (cs : List Char) : trim cs = (cs.dropWhile isBlank).rdropWhile isBlank := rfl

theorem trim_of_blank (h : ∀ c ∈ cs, isBlank c) : trim cs = [] := by
  rw [trim_eq, List.dropWhile_eq_nil_iff.mpr h]
  rfl

theorem trim_cons_of_blank (h : isBlank c) : trim (c :: cs) = trim cs := by
  rw [trim_eq, trim_eq, List.dropWhile_cons_of_pos h]

theorem Trimmed.trim_append (h : Trimmed cs) (hblanks : ∀ c ∈ blanks, isBlank c) :
    trim (cs ++ blanks) = cs := by
  obtain ⟨c, rest, rfl⟩ := List.exists_cons_of_ne_nil h.ne_nil
  have hc : isBlank c = false := h.first c rfl
  have hend : (c :: rest).rdropWhile isBlank = c :: rest := by
    refine List.rdropWhile_eq_self_iff.mpr fun hne => ?_
    have hlast := h.last _ (List.getLast?_eq_some_getLast hne)
    simp [hlast]
  rw [trim_eq, List.cons_append, List.dropWhile_cons_of_neg (by simp [hc]), ← List.cons_append,
    List.rdropWhile, List.reverse_append, List.dropWhile_append_of_pos (by simpa using hblanks)]
  exact hend

theorem exists_trimmed_append (hc : isBlank c = false) (cs : List Char) :
    ∃ word blanks, c :: cs = word ++ blanks ∧ Trimmed word ∧ ∀ c ∈ blanks, isBlank c := by
  have hsplit : c :: cs = (c :: cs).rdropWhile isBlank ++ (c :: cs).rtakeWhile isBlank := by
    rw [List.rdropWhile, List.rtakeWhile, ← List.reverse_append, List.takeWhile_append_dropWhile,
      List.reverse_reverse]
  have hne : (c :: cs).rdropWhile isBlank ≠ [] := by
    simp only [ne_eq, List.rdropWhile_eq_nil_iff, not_forall]
    exact ⟨c, by simp, by simp [hc]⟩
  refine ⟨_, _, hsplit, ⟨hne, fun d hd => ?_, fun d hd => ?_⟩,
    fun d hd => List.mem_rtakeWhile_imp hd⟩
  · have hhead : (c :: cs).head? = some d := by
      rw [hsplit, List.head?_append_of_ne_nil _ hne]
      exact hd
    obtain rfl : c = d := by simpa using hhead
    exact hc
  · have hlast := List.rdropWhile_last_not isBlank (c :: cs) hne
    rw [List.getLast?_eq_some_getLast hne, Option.mem_some] at hd
    simpa [hd] using hlast

end Trim

namespace Token

-- What may stand in a word, between its ends even white space.
def plain (delims : List Char) (c : Char) : Bool := c ≠ ')' && c ∉ delims

structure IsWord (delims : List Char) (w : String) : Prop where
  trimmed : Trimmed w.toList
  plain : ∀ c ∈ w.toList, Token.plain delims c

-- What a text is read to: delimiters and words.
def IsToken (delims : List Char) : Token → Prop
  | .delim c => c ∈ delims
  | .word w => IsWord delims w

-- The texts that have these tokens. A closing parenthesis or white space may stand at any place
-- outside the words, and a word goes on up to the next delimiter or closing parenthesis.
inductive Shows (delims : List Char) : List Token → List Char → Prop where
  | nil : Shows delims [] []
  | close (h : Shows delims ts cs) : Shows delims ts (')' :: cs)
  | blank (hc : isBlank c) (hplain : plain delims c) (h : Shows delims ts cs) :
      Shows delims ts (c :: cs)
  | delim (hc : c ∈ delims) (hclose : c ≠ ')') (h : Shows delims ts cs) :
      Shows delims (.delim c :: ts) (c :: cs)
  | word (hw : IsWord delims w) (hend : ∀ c ∈ cs.takeWhile (plain delims), isBlank c)
      (h : Shows delims ts cs) : Shows delims (.word w :: ts) (w.toList ++ cs)

section Split

variable {delims cs ds : List Char} {ts : List Token} {c : Char} {w : String}

theorem split_eq (delims cs : List Char) : split delims cs =
    consWord (cs.foldr (push delims) ([], [])).1 (cs.foldr (push delims) ([], [])).2 := rfl

-- The word that is being read is all that stands in front of the next delimiter.
theorem fst_foldr_push (delims cs : List Char) :
    (cs.foldr (push delims) ([], [])).1 = cs.takeWhile (plain delims) := by
  induction cs with
  | nil => rfl
  | cons c cs ih =>
      rw [List.foldr_cons, push, List.takeWhile_cons, ih]
      by_cases hclose : c = ')'
      · simp [plain, hclose]
      · by_cases hc : c ∈ delims <;> simp [plain, hclose, hc]

theorem foldr_push_append (h : ∀ c ∈ ds, plain delims c) (cs : List Char) :
    (ds ++ cs).foldr (push delims) ([], []) =
      (ds ++ cs.takeWhile (plain delims), (cs.foldr (push delims) ([], [])).2) := by
  induction ds with
  | nil => rw [List.nil_append, List.nil_append, ← fst_foldr_push]
  | cons d ds ih =>
      obtain ⟨hd, hds⟩ := List.forall_mem_cons.mp h
      simp only [plain, Bool.and_eq_true, decide_eq_true_eq] at hd
      rw [List.cons_append, List.foldr_cons, ih hds, push, if_neg hd.1, if_neg hd.2]
      rfl

theorem consWord_of_blank (h : ∀ c ∈ cs, isBlank c) (ts : List Token) : consWord cs ts = ts := by
  rw [consWord, trim_of_blank h]

theorem split_close (delims cs : List Char) : split delims (')' :: cs) = split delims cs := rfl

theorem split_delim (hc : c ∈ delims) (hclose : c ≠ ')') :
    split delims (c :: cs) = .delim c :: split delims cs := by
  rw [split_eq, List.foldr_cons, push, if_neg hclose, if_pos hc]
  rfl

theorem split_blank (hc : isBlank c) (hplain : plain delims c) :
    split delims (c :: cs) = split delims cs := by
  rw [split_eq, ← List.singleton_append, foldr_push_append (by simpa using hplain), split_eq,
    fst_foldr_push]
  simp only [consWord, List.singleton_append, trim_cons_of_blank hc]

theorem split_word (hw : IsWord delims w) (hend : ∀ c ∈ cs.takeWhile (plain delims), isBlank c) :
    split delims (w.toList ++ cs) = .word w :: split delims cs := by
  have hrest : split delims cs = (cs.foldr (push delims) ([], [])).2 := by
    rw [split_eq, fst_foldr_push, consWord_of_blank hend]
  obtain ⟨c, rest, hcons⟩ := List.exists_cons_of_ne_nil hw.trimmed.ne_nil
  rw [split_eq, foldr_push_append hw.plain, hrest, consWord, hw.trimmed.trim_append hend]
  simp only [hcons]
  rw [← hcons, String.ofList_toList]

-- What stands up to the next delimiter is a word and the white space behind it.
theorem exists_word_append (hblank : isBlank c = false) (hplain : plain delims c)
    (cs : List Char) : ∃ w rest, c :: cs = w.toList ++ rest ∧ IsWord delims w ∧
      ∀ c ∈ rest.takeWhile (plain delims), isBlank c := by
  obtain ⟨word, blanks, hword, htrimmed, hblanks⟩ :=
    exists_trimmed_append hblank (cs.takeWhile (plain delims))
  have hall : ∀ d ∈ word ++ blanks, plain delims d := by
    intro d hd
    rw [← hword, ← List.takeWhile_cons_of_pos hplain] at hd
    exact List.mem_takeWhile_imp hd
  obtain ⟨hallWord, hallBlanks⟩ := List.forall_mem_append.mp hall
  refine ⟨String.ofList word, blanks ++ cs.dropWhile (plain delims), ?_, ⟨?_, ?_⟩, ?_⟩
  · rw [String.toList_ofList, ← List.append_assoc, ← hword, List.cons_append,
      List.takeWhile_append_dropWhile]
  · rwa [String.toList_ofList]
  · rwa [String.toList_ofList]
  · rw [List.takeWhile_append_of_pos hallBlanks]
    have hstop : (cs.dropWhile (plain delims)).takeWhile (plain delims) = [] :=
      List.takeWhile_eq_nil_iff.mpr (List.dropWhile_get_zero_not _ _)
    rwa [hstop, List.append_nil]

-- Each text is read to tokens that it shows.
theorem shows_split (delims : List Char) (cs : List Char) : Shows delims (split delims cs) cs := by
  match cs with
  | [] => exact .nil
  | c :: cs =>
      by_cases hclose : c = ')'
      · subst hclose
        rw [split_close]
        exact .close (shows_split delims cs)
      by_cases hc : c ∈ delims
      · rw [split_delim hc hclose]
        exact .delim hc hclose (shows_split delims cs)
      have hplain : plain delims c := by simp [plain, hclose, hc]
      cases hblank : isBlank c with
      | true =>
          rw [split_blank hblank hplain]
          exact .blank hblank hplain (shows_split delims cs)
      | false =>
          obtain ⟨w, rest, heq, hw, hend⟩ := exists_word_append hblank hplain cs
          have hshorter : rest.length < (c :: cs).length := by
            have hpos := List.length_pos_iff.mpr hw.trimmed.ne_nil
            rw [heq, List.length_append]
            omega
          rw [heq, split_word hw hend]
          exact .word hw hend (shows_split delims rest)
termination_by cs.length
decreasing_by all_goals (simp only [List.length_cons] at *; omega)

-- There is one way to read a text.
theorem Shows.split_eq (h : Shows delims ts cs) : split delims cs = ts := by
  induction h with
  | nil => rfl
  | close _ ih => rw [split_close, ih]
  | blank hc hplain _ ih => rw [split_blank hc hplain, ih]
  | delim hc hclose _ ih => rw [split_delim hc hclose, ih]
  | word hw hend _ ih => rw [split_word hw hend, ih]

theorem Shows.isToken (h : Shows delims ts cs) : ∀ t ∈ ts, IsToken delims t := by
  induction h with
  | nil => exact List.forall_mem_nil _
  | close _ ih | blank _ _ _ ih => exact ih
  | delim hc _ _ ih => exact List.forall_mem_cons.mpr ⟨hc, ih⟩
  | word hw _ _ ih => exact List.forall_mem_cons.mpr ⟨hw, ih⟩

theorem isWord_of_mem_split (h : .word w ∈ split delims cs) : IsWord delims w :=
  (shows_split delims cs).isToken _ h

-- Two words that follow one another would be read as one.
theorem Shows.blank_of_head (h : Shows delims ts cs) (hts : ∀ w, ts.head? ≠ some (.word w)) :
    ∀ c ∈ cs.takeWhile (plain delims), isBlank c := by
  induction h with
  | nil => simp
  | close _ _ => simp [plain]
  | blank hc hplain _ ih =>
      rw [List.takeWhile_cons_of_pos hplain]
      exact List.forall_mem_cons.mpr ⟨hc, ih hts⟩
  | delim hc _ _ _ => simp [plain, hc]
  | word _ _ _ _ => exact absurd rfl (hts _)

theorem Shows.cons_word (h : Shows delims ts cs) (hw : IsWord delims w)
    (hts : ∀ w, ts.head? ≠ some (.word w)) : Shows delims (.word w :: ts) (w.toList ++ cs) :=
  .word hw (h.blank_of_head hts) h

-- The text behind may start with white space, but with no word that the one in front goes on with.
theorem Shows.append_of_blank {us : List Token} (h : Shows delims ts cs) (h' : Shows delims us ds)
    (hds : ∀ c ∈ ds.takeWhile (plain delims), isBlank c) :
    Shows delims (ts ++ us) (cs ++ ds) := by
  induction h with
  | nil => exact h'
  | close _ ih => exact .close ih
  | blank hc hplain _ ih => exact .blank hc hplain ih
  | delim hc hclose _ ih => exact .delim hc hclose ih
  | @word w ts cs hw hend _ ih =>
      rw [List.append_assoc]
      refine .word hw ?_ ih
      rw [List.takeWhile_append]
      split
      next hall =>
        have hcs : cs.takeWhile (plain delims) = cs :=
          (List.takeWhile_prefix _).eq_of_length hall
        exact List.forall_mem_append.mpr ⟨hcs ▸ hend, hds⟩
      next => exact hend

theorem Shows.append {us : List Token} (h : Shows delims ts cs) (h' : Shows delims us ds)
    (hus : ∀ w, us.head? ≠ some (.word w)) : Shows delims (ts ++ us) (cs ++ ds) :=
  h.append_of_blank h' (h'.blank_of_head hus)

end Split

theorem not_blank_of_isNumeralChar {c : Char} (h : IsNumeralChar c) : isBlank c = false := by
  obtain ⟨hlow, hhigh⟩ := toNat_of_isNumeralChar h
  simp only [isBlank, Bool.or_eq_false_iff, Bool.and_eq_false_iff, decide_eq_false_iff_not,
    beq_eq_false_iff_ne]
  omega

-- What is written like a number is a word where no such character delimits.
theorem isWord_of_isNumeralChar {delims : List Char} {w : String}
    (hdelims : (')' :: delims).all (!IsNumeralChar ·)) (hne : w.toList ≠ [])
    (h : ∀ c ∈ w.toList, IsNumeralChar c) : IsWord delims w where
  trimmed :=
    { ne_nil := hne
      first := fun c hc => not_blank_of_isNumeralChar (h c (List.mem_of_mem_head? hc))
      last := fun c hc => not_blank_of_isNumeralChar (h c (List.mem_of_mem_getLast? hc)) }
  plain := fun c hc => by
    have hnot : c ∉ ')' :: delims := by
      intro hmem
      have hother := List.all_eq_true.mp hdelims c hmem
      simp [h c hc] at hother
    simpa [plain] using hnot

end Token

end CallSuite.Text
