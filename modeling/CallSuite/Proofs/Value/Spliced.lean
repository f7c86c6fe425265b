import CallSuite.Proofs.Value.Atom

namespace CallSuite.Value

open CallSuite.Text

-- What a character behind a backslash stands for.
def unescape? : Char → Option Char
  | '\\' => some '\\'
  | '\'' => some '\''
  | 'n' => some '\n'
  | 't' => some '\t'
  | 'r' => some '\r'
  | _ => none

-- Reads a literal of Python behind its opening quote: the characters that it stands for, and what
-- follows the closing quote. None of `ends` may stand in it as itself.
def readBody? (ends : List Char) : List Char → Option (List Char × List Char)
  | [] => none
  | c :: text =>
    if c = '\'' then some ([], text)
    else if c = '\\' then match text with
      | [] => none
      | d :: text => (unescape? d).bind fun d => (readBody? ends text).map fun r => (d :: r.1, r.2)
    else if c ∈ ends then none
    else (readBody? ends text).map fun r => (c :: r.1, r.2)

theorem length_readBody? {ends text : List Char} :
    ∀ r ∈ readBody? ends text, r.2.length < text.length := by
  fun_induction readBody? ends text with
  | case1 => nofun
  | case2 text =>
      rintro r ⟨⟩
      simp
  | case3 => nofun
  | case4 d text _ ih =>
      intro r hr
      obtain ⟨_, _, hr⟩ := Option.bind_eq_some_iff.mp hr
      obtain ⟨body, hbody, rfl⟩ := Option.map_eq_some_iff.mp hr
      have := ih body hbody
      simp only [List.length_cons]
      omega
  | case5 => nofun
  | case6 c text _ _ _ ih =>
      intro r hr
      obtain ⟨body, hbody, rfl⟩ := Option.map_eq_some_iff.mp hr
      have := ih body hbody
      simp only [List.length_cons]
      omega

-- The strings whose literals stand in a text, which has no other quotes.
def readStrings? (ends : List Char) (text : List Char) : Option (List String) :=
  match text with
  | [] => some []
  | '\'' :: text => match _h : readBody? ends text with
    | some (cs, rest) => (String.ofList cs :: ·) <$> readStrings? ends rest
    | none => none
  | _ :: text => readStrings? ends text
termination_by text.length
decreasing_by
  · have := length_readBody? _ _h
    simp only [List.length_cons] at *
    omega
  · simp

-- The characters that end a line. Python has none of them in a literal in single quotes, unless
-- behind a backslash.
def lineEnds : List Char := ['\n', '\r']

-- The strings that a value holds, in the order in which they are written.
mutual

def strings : Value → List String
  | .str s => [s]
  | .collection _ items => itemStrings items
  | .dict entries => entryStrings entries
  | .bool _ | .int _ | .float _ => []

def itemStrings : List Value → List String
  | [] => []
  | v :: vs => v.strings ++ itemStrings vs

def entryStrings : List (Value × Value) → List String
  | [] => []
  | (k, v) :: entries => k.strings ++ (v.strings ++ entryStrings entries)

end

section Literal

variable {ends cs rest : List Char} {c : Char}

-- A character that is written as itself where it may not stand.
def Misplaced (ends : List Char) (c : Char) : Prop := c ∈ ends ∧ escaped c = [c]

instance : Decidable (Misplaced ends c) := inferInstanceAs (Decidable (_ ∧ _))

-- A literal of these characters is broken off at the first that is misplaced.
def BrokenOff (ends cs : List Char) : Prop := ∃ c ∈ cs, Misplaced ends c

instance : Decidable (BrokenOff ends cs) := List.decidableBEx _ _

theorem not_brokenOff_nil : ¬ BrokenOff ends [] := by
  simp [BrokenOff]

theorem brokenOff_cons_iff : BrokenOff ends (c :: cs) ↔ Misplaced ends c ∨ BrokenOff ends cs := by
  simp [BrokenOff]

theorem readBody?_quote (text : List Char) : readBody? ends ('\'' :: text) = some ([], text) := by
  unfold readBody?
  exact if_pos rfl

theorem readBody?_escape {d : Char} (h : unescape? d = some c) (text : List Char) :
    readBody? ends ('\\' :: d :: text) = (readBody? ends text).map fun r => (c :: r.1, r.2) := by
  rw [readBody?, if_neg (by decide), if_pos rfl, h]
  rfl

theorem readBody?_plain (hquote : c ≠ '\'') (hbackslash : c ≠ '\\') (text : List Char) :
    readBody? ends (c :: text) =
      if c ∈ ends then none else (readBody? ends text).map fun r => (c :: r.1, r.2) := by
  rw [readBody?.eq_def]
  dsimp only
  rw [if_neg hquote, if_neg hbackslash]

theorem readBody?_escaped (c : Char) (rest : List Char) : readBody? ends (escaped c ++ rest) =
    if Misplaced ends c then none else (readBody? ends rest).map fun r => (c :: r.1, r.2) := by
  unfold Misplaced escaped
  split
  next => simpa using readBody?_escape rfl rest
  next => simpa using readBody?_escape rfl rest
  next => simpa using readBody?_escape rfl rest
  next => simpa using readBody?_escape rfl rest
  next hbackslash hquote _ _ => simpa using readBody?_plain hquote hbackslash rest

theorem readBody?_flatMap_escaped (ends cs rest : List Char) :
    readBody? ends (cs.flatMap escaped ++ '\'' :: rest) =
      if BrokenOff ends cs then none else some (cs, rest) := by
  induction cs with
  | nil => simp [readBody?_quote, not_brokenOff_nil]
  | cons c cs ih =>
      rw [List.flatMap_cons, List.append_assoc, readBody?_escaped, ih]
      by_cases hc : Misplaced ends c
      · simp [brokenOff_cons_iff, hc]
      · by_cases hcs : BrokenOff ends cs <;> simp [brokenOff_cons_iff, hc, hcs]

end Literal

section Text

variable {ends cs rest : List Char} {c : Char}

-- These strings and those behind them, unless a literal is broken off.
def collect? (ends : List Char) (ss : List String) (behind : Option (List String)) :
    Option (List String) :=
  ss.foldr (fun s behind => if BrokenOff ends s.toList then none else behind.map (s :: ·)) behind

theorem collect?_append (ss us : List String) (behind : Option (List String)) :
    collect? ends (ss ++ us) behind = collect? ends ss (collect? ends us behind) :=
  List.foldr_append

theorem collect?_some_nil (ss : List String) : collect? ends ss (some []) =
    if ∃ s ∈ ss, BrokenOff ends s.toList then none else some ss := by
  induction ss with
  | nil => rfl
  | cons s ss ih =>
      rw [collect?, List.foldr_cons, ← collect?, ih]
      by_cases hs : BrokenOff ends s.toList
      · simp [hs]
      · by_cases hss : ∃ s ∈ ss, BrokenOff ends s.toList <;> simp [hs, hss]

theorem readStrings?_cons (hc : c ≠ '\'') (text : List Char) :
    readStrings? ends (c :: text) = readStrings? ends text := by
  rw [readStrings?]
  exact hc

theorem readStrings?_append (hcs : '\'' ∉ cs) (rest : List Char) :
    readStrings? ends (cs ++ rest) = readStrings? ends rest := by
  induction cs with
  | nil => rfl
  | cons c cs ih =>
      rw [List.mem_cons, not_or] at hcs
      rw [List.cons_append, readStrings?_cons (Ne.symm hcs.1), ih hcs.2]

theorem readStrings?_literal {text : List Char} {r : List Char × List Char}
    (h : readBody? ends text = some r) :
    readStrings? ends ('\'' :: text) = (readStrings? ends r.2).map (String.ofList r.1 :: ·) := by
  rw [readStrings?]
  split
  next hr =>
    obtain rfl := Option.some.inj (h.symm.trans hr)
    rfl
  next hr => cases h.symm.trans hr

theorem readStrings?_broken {text : List Char} (h : readBody? ends text = none) :
    readStrings? ends ('\'' :: text) = none := by
  rw [readStrings?]
  split
  next hr => cases h.symm.trans hr
  next => rfl

theorem readStrings?_quoted (s : String) (rest : List Char) :
    readStrings? ends (quoted s.toList ++ rest) = collect? ends [s] (readStrings? ends rest) := by
  have hbody := readBody?_flatMap_escaped ends s.toList rest
  have htext : quoted s.toList ++ rest = '\'' :: (s.toList.flatMap escaped ++ '\'' :: rest) := by
    rw [quoted, List.cons_append, List.append_assoc, List.singleton_append]
  rw [htext]
  by_cases hs : BrokenOff ends s.toList
  · rw [if_pos hs] at hbody
    rw [readStrings?_broken hbody]
    simp [collect?, hs]
  · rw [if_neg hs] at hbody
    rw [readStrings?_literal hbody]
    simp [collect?, hs]

-- Numbers are written without quotes, and so is a NaN.
theorem quote_not_mem_int (i : Int) : '\'' ∉ (toString i).toList := by
  intro hmem
  have hchar := isNumeralChar_of_readInt? (readInt?_toString i) _ hmem
  exact absurd hchar (by decide)

theorem quote_not_mem_literal (x : Binary64) : '\'' ∉ x.literal.toList := by
  by_cases hx : x.isNaN
  · have hnan : x.literal = "nan" := by
      unfold Binary64.literal
      rw [if_pos hx]
    rw [hnan]
    decide
  · intro hmem
    have hread := Binary64.read?_literal (Bool.not_eq_true _ ▸ hx)
    have hchar := Binary64.isNumeralChar_of_read? hread _ hmem
    exact absurd hchar (by decide)

-- The literals in this text are those of the strings `ss`, whatever follows it.
def Found (ends cs : List Char) (ss : List String) : Prop :=
  ∀ rest, readStrings? ends (cs ++ rest) = collect? ends ss (readStrings? ends rest)

theorem found_of_not_mem (hcs : '\'' ∉ cs) : Found ends cs [] :=
  readStrings?_append hcs

theorem Found.append {ds : List Char} {ss us : List String} (hcs : Found ends cs ss)
    (hds : Found ends ds us) : Found ends (cs ++ ds) (ss ++ us) := by
  intro rest
  rw [List.append_assoc, hcs, hds, collect?_append]

theorem Found.between {behind : List Char} {ss : List String} (h : Found ends cs ss)
    (hc : c ≠ '\'') (hbehind : '\'' ∉ behind) : Found ends (c :: (cs ++ behind)) ss := by
  have hmore := h.append (found_of_not_mem hbehind)
  rw [List.append_nil] at hmore
  intro rest
  rw [List.cons_append, readStrings?_cons hc, hmore]

section Rows

variable {α : Type} {text : α → List Char} {strings : α → List String} {xs : List α}

theorem found_more (h : ∀ x ∈ xs, Found ends (text x) (strings x)) :
    Found ends (more text xs) (xs.flatMap strings) := by
  induction xs with
  | nil => exact found_of_not_mem List.not_mem_nil
  | cons x xs ih =>
      obtain ⟨hx, hxs⟩ := List.forall_mem_cons.mp h
      have hcomma : '\'' ∉ [',', ' '] := by decide
      rw [more_cons]
      exact (found_of_not_mem hcomma).append (hx.append (ih hxs))

theorem found_row (h : ∀ x ∈ xs, Found ends (text x) (strings x)) :
    Found ends (row text xs) (xs.flatMap strings) := by
  cases xs with
  | nil => exact found_of_not_mem List.not_mem_nil
  | cons x xs =>
      obtain ⟨hx, hxs⟩ := List.forall_mem_cons.mp h
      exact hx.append (found_more hxs)

end Rows

theorem itemStrings_eq_flatMap (items : List Value) :
    itemStrings items = items.flatMap strings := by
  induction items with
  | nil => rfl
  | cons v vs ih => rw [itemStrings, ih, List.flatMap_cons]

theorem entryStrings_eq_flatMap (entries : List (Value × Value)) :
    entryStrings entries = entries.flatMap fun e => e.1.strings ++ e.2.strings := by
  induction entries with
  | nil => rfl
  | cons e entries ih => rw [entryStrings, ih, List.flatMap_cons, List.append_assoc]

theorem sizeOf_lt_of_mem_entries {entries : List (Value × Value)} {e : Value × Value}
    (he : e ∈ entries) :
    sizeOf e.1 < sizeOf (dict entries) ∧ sizeOf e.2 < sizeOf (dict entries) := by
  have hlt := List.sizeOf_lt_of_mem he
  obtain ⟨k, v⟩ := e
  simp only [Prod.mk.sizeOf_spec] at hlt
  simp only [dict.sizeOf_spec]
  omega

-- Between the literals of a value there are no quotes, so each is found.
theorem found_chars (v : Value) : Found ends v.chars v.strings := by
  match v with
  | .bool true => exact found_of_not_mem (by decide)
  | .bool false => exact found_of_not_mem (by decide)
  | .int i =>
      have htext : (int i).chars = (toString i).toList := by simp [chars, text, write]
      rw [htext]
      exact found_of_not_mem (quote_not_mem_int i)
  | .float x =>
      have htext : (float x).chars = x.literal.toList := by simp [chars, text, write]
      rw [htext]
      exact found_of_not_mem (quote_not_mem_literal x)
  | .str s =>
      rw [chars_str]
      exact readStrings?_quoted s
  | .collection c items =>
      have hrow : Found ends (row chars items) (itemStrings items) :=
        itemStrings_eq_flatMap items ▸ found_row fun v hv => found_chars v
      match c, items with
      | .list, items =>
          rw [chars_list]
          exact hrow.between (by decide) (by decide)
      | .tuple, items =>
          have hclose : '\'' ∉ tupleComma items ++ [')'] := by
            unfold tupleComma
            split <;> decide
          rw [chars_tuple]
          exact hrow.between (by decide) hclose
      | .set, [] => exact found_of_not_mem (by decide)
      | .set, v :: vs =>
          rw [chars_set]
          exact hrow.between (by decide) (by decide)
  | .dict entries =>
      have hcolon : '\'' ∉ [':', ' '] := by decide
      have hrow : Found ends (row entryChars entries) (entryStrings entries) :=
        entryStrings_eq_flatMap entries ▸ found_row fun e he =>
          (found_chars e.1).append ((found_of_not_mem hcolon).append (found_chars e.2))
      rw [chars_dict]
      exact hrow.between (by decide) (by decide)
termination_by v
decreasing_by
  · have := List.sizeOf_lt_of_mem hv
    simp only [collection.sizeOf_spec]
    omega
  · exact (sizeOf_lt_of_mem_entries he).1
  · exact (sizeOf_lt_of_mem_entries he).2

end Text

section CarriageReturn

variable {cs : List Char} {c : Char}

theorem not_brokenOff_lineFeed : ¬ BrokenOff ['\n'] cs := by
  intro h
  obtain ⟨c, -, hc, hescaped⟩ := h
  obtain rfl := List.mem_singleton.mp hc
  cases hescaped

-- Of the characters that end a line, the line feed is escaped and the carriage return is not.
theorem misplaced_lineEnds_iff : Misplaced lineEnds c ↔ c = '\r' := by
  constructor
  · intro h
    obtain ⟨hc, hescaped⟩ := h
    obtain rfl | hc := List.mem_cons.mp hc
    · cases hescaped
    · exact List.mem_singleton.mp hc
  · rintro rfl
    decide

theorem brokenOff_lineEnds_iff : BrokenOff lineEnds cs ↔ '\r' ∈ cs := by
  simp [BrokenOff, misplaced_lineEnds_iff]

theorem lineFeed_not_mem_escaped (c : Char) : '\n' ∉ escaped c := by
  unfold escaped
  split
  next => decide
  next => decide
  next => decide
  next => decide
  next hlineFeed _ =>
    intro hmem
    exact hlineFeed (List.mem_singleton.mp hmem).symm

theorem carriageReturn_mem_escaped_iff : '\r' ∈ escaped c ↔ c = '\r' := by
  unfold escaped
  split <;> simp [eq_comm]

theorem readStrings?_lineEnds {text : List Char} {ss : List String}
    (h : ∀ ends, readStrings? ends text = collect? ends ss (some [])) :
    readStrings? ['\n'] text = some ss ∧ readStrings? lineEnds text =
      if ∃ s ∈ ss, '\r' ∈ s.toList then none else some ss := by
  rw [h, h, collect?_some_nil, collect?_some_nil]
  simp [not_brokenOff_lineFeed, brokenOff_lineEnds_iff]

theorem strings_read_back_unless_carriageReturn (s : String) (v : Value) (t : TestCase) :
    (∃ body, (str s).text.toList = '\'' :: (body ++ ['\'']) ∧ '\n' ∉ body ∧
      ('\r' ∈ body ↔ '\r' ∈ s.toList) ∧
      ∀ rest, readBody? ['\n'] (body ++ '\'' :: rest) = some (s.toList, rest) ∧
        readBody? lineEnds (body ++ '\'' :: rest) =
          if '\r' ∈ s.toList then none else some (s.toList, rest)) ∧
    (readStrings? ['\n'] v.text.toList = some v.strings ∧
      readStrings? lineEnds v.text.toList =
        if ∃ s ∈ v.strings, '\r' ∈ s.toList then none else some v.strings) ∧
    readStrings? ['\n'] t.text.toList = some (itemStrings t.args) ∧
      readStrings? lineEnds t.text.toList =
        if ∃ s ∈ itemStrings t.args, '\r' ∈ s.toList then none else some (itemStrings t.args) := by
  refine ⟨⟨s.toList.flatMap escaped, chars_str s, ?_, ?_, fun rest => ?_⟩, ?_, ?_⟩
  · simp [lineFeed_not_mem_escaped]
  · simp [carriageReturn_mem_escaped_iff]
  · rw [readBody?_flatMap_escaped, readBody?_flatMap_escaped]
    simp [not_brokenOff_lineFeed, brokenOff_lineEnds_iff]
  · apply readStrings?_lineEnds
    intro ends
    simpa [chars, readStrings?] using found_chars v []
  · apply readStrings?_lineEnds
    intro ends
    have hrow : Found ends (row chars t.args) (itemStrings t.args) :=
      itemStrings_eq_flatMap t.args ▸ found_row fun v _ => found_chars v
    rw [TestCase.text, toList_writeItems_row]
    simpa [readStrings?] using hrow []

-- A carriage return is written as itself, and Python reads no string that is so broken off.
theorem carriageReturn_not_read_back :
    (str "\r").text = "'\r'" ∧ (str "\r").strings = ["\r"] ∧
      readStrings? lineEnds (str "\r").text.toList = none := by
  refine ⟨by decide, rfl, ?_⟩
  have hliteral : readStrings? lineEnds (quoted "\r".toList ++ []) = _ :=
    readStrings?_quoted "\r" []
  rw [List.append_nil, ← chars_str] at hliteral
  exact hliteral

end CarriageReturn

end CallSuite.Value
