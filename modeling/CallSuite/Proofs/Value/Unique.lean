import CallSuite.Proofs.Ordered
import CallSuite.Proofs.Value.Atom
import Mathlib.Data.List.Permutation

namespace CallSuite

open CallSuite.Text

namespace Value

section Quoted

variable {c d : Char} {cs ds rest rest' : List Char}

-- One character is written as itself or, behind a backslash, as another one.
theorem escaped_inj (h : escaped c ++ rest = escaped d ++ rest') : c = d ∧ rest = rest' := by
  unfold escaped at h
  split at h <;> split at h <;> grind

theorem head_escaped (c : Char) (rest : List Char) : (escaped c ++ rest).head? ≠ some '\'' := by
  unfold escaped
  split <;> simp_all

theorem quoted_inj (h : quoted cs ++ rest = quoted ds ++ rest') : cs = ds ∧ rest = rest' := by
  simp only [quoted, List.cons_append, List.append_assoc, List.cons.injEq, true_and,
    List.nil_append] at h
  induction cs generalizing ds with
  | nil =>
      cases ds with
      | nil => simpa using h
      | cons d ds =>
          have hhead := head_escaped d (ds.flatMap escaped ++ '\'' :: rest')
          rw [← List.append_assoc, ← List.flatMap_cons, ← h] at hhead
          exact absurd rfl hhead
  | cons c cs ih =>
      cases ds with
      | nil =>
          have hhead := head_escaped c (cs.flatMap escaped ++ '\'' :: rest)
          rw [← List.append_assoc, ← List.flatMap_cons, h] at hhead
          exact absurd rfl hhead
      | cons d ds =>
          rw [List.flatMap_cons, List.flatMap_cons, List.append_assoc, List.append_assoc] at h
          obtain ⟨rfl, hmore⟩ := escaped_inj h
          obtain ⟨rfl, hrest⟩ := ih hmore
          exact ⟨rfl, hrest⟩

end Quoted

-- What may stand behind a value: nothing, or what ends or separates members.
def stops : List Char := [',', ':', ')', ']', '}']

def Stops (rest : List Char) : Prop := ∀ c ∈ rest.head?, c ∈ stops

variable {a b v : Value} {rest rest' : List Char}

theorem not_isNumeralChar_of_mem_stops {c : Char} (hc : c ∈ stops) : ¬IsNumeralChar c := by
  have hall : stops.all (!IsNumeralChar ·) := by decide
  simpa using List.all_eq_true.mp hall c hc

theorem word_append (hrest : Stops rest) (cs : List Char) : word (cs ++ rest) = word cs := by
  have hstop : rest.takeWhile IsNumeralChar = [] := by
    cases rest with
    | nil => rfl
    | cons c rest =>
        exact List.takeWhile_cons_of_neg (not_isNumeralChar_of_mem_stops (hrest c rfl))
  rw [word, List.takeWhile_append, hstop, List.append_nil]
  split
  next hall => exact ((List.takeWhile_prefix _).eq_of_length hall).symm
  next => rfl

theorem exists_chars_of_opening? {c : Char} (h : v.opening? = some c) :
    ∃ cs, v.chars = c :: cs := by
  unfold opening? at h
  split at h <;> cases h
  next s => exact ⟨_, chars_str s⟩
  next items => exact ⟨_, chars_list items⟩
  next items => exact ⟨_, chars_tuple items⟩
  next => exact ⟨_, rfl⟩
  next v vs => exact ⟨_, chars_set v vs⟩
  next entries => exact ⟨_, chars_dict entries⟩

-- What cannot be taken for something that stands behind a value.
def Opens (cs : List Char) : Prop := ∃ c ∈ cs.head?, c ∉ stops

theorem Opens.append {cs : List Char} (h : Opens cs) (ds : List Char) : Opens (cs ++ ds) := by
  obtain ⟨c, hc, hstop⟩ := h
  exact ⟨c, by simp [Option.mem_def.mp hc], hstop⟩

theorem Opens.not_stops {cs : List Char} (h : Opens cs) : ¬Stops cs :=
  fun hstops => h.elim fun c hc => hc.2 (hstops c hc.1)

theorem opens_chars (h : v.NaNFree) : Opens v.chars := by
  cases hopening : v.opening? with
  | none =>
      have hread := readAtom?_word_chars h
      rw [if_pos hopening] at hread
      cases hchars : v.chars with
      | nil =>
          rw [hchars] at hread
          cases hread
      | cons c cs =>
          refine ⟨c, rfl, fun hstop => ?_⟩
          rw [hchars, word_cons (not_isNumeralChar_of_mem_stops hstop)] at hread
          cases hread
  | some c =>
      obtain ⟨cs, hcs⟩ := exists_chars_of_opening? hopening
      refine ⟨c, by rw [hcs]; rfl, ?_⟩
      unfold opening? at hopening
      split at hopening <;> cases hopening <;> decide

-- What is written as one word ends where the word does, and the others show what they open with.
theorem eq_or_opening?_eq (ha : a.NaNFree) (hb : b.NaNFree) (hrest : Stops rest)
    (hrest' : Stops rest') (h : a.chars ++ rest = b.chars ++ rest') :
    (a = b ∧ rest = rest') ∨ ∃ c, a.opening? = some c ∧ b.opening? = some c := by
  have hwords : word a.chars = word b.chars := by
    rw [← word_append hrest, h, word_append hrest']
  have hread := readAtom?_word_chars ha
  rw [hwords, readAtom?_word_chars hb] at hread
  cases hopening : a.opening? with
  | none =>
      cases hopening' : b.opening? with
      | none =>
          obtain rfl : b = a := by simpa [hopening, hopening'] using hread
          exact .inl ⟨rfl, List.append_cancel_left h⟩
      | some c => simp [hopening, hopening'] at hread
  | some c =>
      cases hopening' : b.opening? with
      | none => simp [hopening, hopening'] at hread
      | some d =>
          obtain ⟨cs, hcs⟩ := exists_chars_of_opening? hopening
          obtain ⟨ds, hds⟩ := exists_chars_of_opening? hopening'
          rw [hcs, hds] at h
          obtain rfl : c = d := (List.cons.inj h).1
          exact .inr ⟨c, rfl, rfl⟩

-- What stands behind all members: it does not go on with a further one.
structure Closes (rest : List Char) : Prop where
  stops : Stops rest
  no_more : ¬[',', ' '] <+: rest

section Rows

variable {α : Type} {text : α → List Char} {P : α → Prop} {xs ys : List α}

-- A text that goes on with this one is that of nothing else which is as it has to be.
def Determined (text : α → List Char) (P : α → Prop) (x : α) : Prop :=
  ∀ y rest rest', P y → Stops rest → Stops rest' → text x ++ rest = text y ++ rest' →
    x = y ∧ rest = rest'

theorem Stops.more (h : Stops rest) (text : α → List Char) (xs : List α) :
    Stops (more text xs ++ rest) := by
  cases xs with
  | nil => exact h
  | cons x xs =>
      rw [more_cons]
      simp [Stops, stops]

theorem Closes.ne_more_cons (h : Closes rest) (x : α) (xs : List α) :
    rest ≠ Value.more text (x :: xs) ++ rest' := by
  rw [more_cons]
  rintro rfl
  exact h.no_more ⟨_, rfl⟩

theorem more_inj (hxs : ∀ x ∈ xs, Determined text P x) (hys : ∀ y ∈ ys, P y) (hrest : Closes rest)
    (hrest' : Closes rest') (h : more text xs ++ rest = more text ys ++ rest') :
    xs = ys ∧ rest = rest' := by
  induction xs generalizing ys with
  | nil =>
      cases ys with
      | nil => exact ⟨rfl, h⟩
      | cons y ys => exact absurd h (hrest.ne_more_cons y ys)
  | cons x xs ih =>
      cases ys with
      | nil => exact absurd h.symm (hrest'.ne_more_cons x xs)
      | cons y ys =>
          obtain ⟨hx, hxs'⟩ := List.forall_mem_cons.mp hxs
          obtain ⟨hy, hys'⟩ := List.forall_mem_cons.mp hys
          simp only [more_cons, List.cons_append, List.cons.injEq, true_and, List.append_assoc] at h
          obtain ⟨rfl, hmore⟩ :=
            hx y _ _ hy (hrest.stops.more text xs) (hrest'.stops.more text ys) h
          obtain ⟨rfl, htail⟩ := ih hxs' hys' hmore
          exact ⟨rfl, htail⟩

theorem row_inj (hopens : ∀ x, P x → Opens (text x)) (hxs : ∀ x ∈ xs, P x)
    (hdetermined : ∀ x ∈ xs, Determined text P x) (hys : ∀ y ∈ ys, P y) (hrest : Closes rest)
    (hrest' : Closes rest') (h : row text xs ++ rest = row text ys ++ rest') :
    xs = ys ∧ rest = rest' := by
  have hcons (x : α) (xs : List α) (hx : P x) (rest : List Char) :
      ¬Stops (row text (x :: xs) ++ rest) :=
    (((hopens x hx).append _).append rest).not_stops
  cases xs with
  | nil =>
      cases ys with
      | nil => exact ⟨rfl, h⟩
      | cons y ys =>
          have hstops : Stops (row text (y :: ys) ++ rest') := h ▸ hrest.stops
          exact absurd hstops (hcons y ys (hys y (by simp)) rest')
  | cons x xs =>
      cases ys with
      | nil =>
          have hstops : Stops (row text (x :: xs) ++ rest) := h ▸ hrest'.stops
          exact absurd hstops (hcons x xs (hxs x (by simp)) rest)
      | cons y ys =>
          obtain ⟨hx, hxs'⟩ := List.forall_mem_cons.mp hdetermined
          obtain ⟨hy, hys'⟩ := List.forall_mem_cons.mp hys
          simp only [row_cons, List.append_assoc] at h
          obtain ⟨rfl, hmore⟩ :=
            hx y _ _ hy (hrest.stops.more text xs) (hrest'.stops.more text ys) h
          obtain ⟨rfl, htail⟩ := more_inj hxs' hys' hrest hrest' hmore
          exact ⟨rfl, htail⟩

end Rows

def EntryNaNFree (e : Value × Value) : Prop := e.1.NaNFree ∧ e.2.NaNFree

theorem stops_colon (cs : List Char) : Stops (':' :: cs) := by simp [Stops, stops]

theorem opens_entryChars (e : Value × Value) (h : EntryNaNFree e) : Opens (entryChars e) :=
  (opens_chars h.1).append _

theorem determined_entry {e : Value × Value} (hkey : Determined chars NaNFree e.1)
    (hvalue : Determined chars NaNFree e.2) : Determined entryChars EntryNaNFree e := by
  intro e' rest rest' he' hrest hrest' h
  simp only [entryChars, List.append_assoc, List.cons_append] at h
  obtain ⟨hkeys, hmore⟩ := hkey e'.1 _ _ he'.1 (stops_colon _) (stops_colon _) h
  simp only [List.cons.injEq, true_and] at hmore
  obtain ⟨hvalues, htail⟩ := hvalue e'.2 _ _ he'.2 hrest hrest' hmore
  exact ⟨Prod.ext hkeys hvalues, htail⟩

theorem NaNFree.entries {entries : List (Value × Value)} (h : (Value.dict entries).NaNFree) :
    ∀ e ∈ entries, EntryNaNFree e := by
  cases h with | dict hkeys hvalues =>
  exact fun e he => ⟨hkeys e he, hvalues e he⟩

section Brackets

variable {c : Char}

theorem closes_bracket (hc : c ∈ [')', ']', '}']) (cs : List Char) : Closes (c :: cs) := by
  simp only [List.mem_cons, List.not_mem_nil, or_false] at hc
  rcases hc with rfl | rfl | rfl <;> exact ⟨by simp [Stops, stops], by simp⟩

theorem closes_tuple (items : List Value) (cs : List Char) :
    Closes (tupleComma items ++ ')' :: cs) := by
  unfold tupleComma
  split
  next =>
    refine ⟨by simp [Stops, stops], ?_⟩
    rintro ⟨ds, hds⟩
    simp at hds
  next => exact closes_bracket (by simp) cs

-- Behind the first member of a set comes a comma or the end, and behind the first key of a dict
-- neither.
theorem set_append_ne_dict {vs : List Value} {entries : List (Value × Value)} (hv : v.NaNFree)
    (hentries : (dict entries).NaNFree)
    (hdetermined : Determined chars NaNFree v ∨ ∀ e ∈ entries, Determined chars NaNFree e.1) :
    (collection .set (v :: vs)).chars ++ rest ≠ (dict entries).chars ++ rest' := by
  intro h
  simp only [chars_set, chars_dict, row_cons, List.cons_append, List.append_assoc, List.cons.injEq,
    true_and, List.nil_append] at h
  have hend (rest : List Char) : Stops ('}' :: rest) := (closes_bracket (by simp) rest).stops
  cases entries with
  | nil =>
      have hstops : Stops (v.chars ++ (more chars vs ++ '}' :: rest)) := h ▸ hend rest'
      exact ((opens_chars hv).append _).not_stops hstops
  | cons e entries =>
      simp only [row_cons, entryChars, List.append_assoc, List.cons_append] at h
      have hkey := (hentries.entries e (by simp)).1
      have hmore := (hend rest).more chars vs
      have htail : ∃ cs, more chars vs ++ '}' :: rest = ':' :: cs := by
        rcases hdetermined with hv' | hkeys'
        · exact ⟨_, (hv' e.1 _ _ hkey hmore (stops_colon _) h).2⟩
        · exact ⟨_, (hkeys' e (by simp) v _ _ hv (stops_colon _) hmore h.symm).2.symm⟩
      cases vs <;> simp [more] at htail

end Brackets

-- A brace opens both a set and a dict.
theorem exists_of_opening?_eq {c : Char} (h : a.opening? = some c) (h' : b.opening? = some c) :
    match a with
    | .str _ => ∃ t, b = .str t
    | .collection .list _ => ∃ ys, b = .collection .list ys
    | .collection .tuple _ => ∃ ys, b = .collection .tuple ys
    | .collection .set [] => b = .collection .set []
    | .collection .set (_ :: _) =>
      (∃ w ws, b = .collection .set (w :: ws)) ∨ ∃ entries, b = .dict entries
    | .dict _ => (∃ w ws, b = .collection .set (w :: ws)) ∨ ∃ entries, b = .dict entries
    | _ => False := by
  unfold opening? at h h'
  split at h <;> cases h <;> split at h' <;> simp_all

-- What is left to look at are the values that have brackets or quotes.
theorem Determined.of_opening (ha : a.NaNFree)
    (h : ∀ b c rest rest', b.NaNFree → a.opening? = some c → b.opening? = some c →
      a.chars ++ rest = b.chars ++ rest' → a = b ∧ rest = rest') :
    Determined chars NaNFree a := by
  intro b rest rest' hb hrest hrest' hchars
  obtain heq | ⟨c, hc, hc'⟩ := eq_or_opening?_eq ha hb hrest hrest' hchars
  · exact heq
  · exact h b c rest rest' hb hc hc' hchars

theorem determined (ha : a.NaNFree) : Determined chars NaNFree a := by
  induction ha with
  | bool =>
      refine .of_opening .bool fun b c rest rest' hb hc hc' h => ?_
      cases hc
  | int =>
      refine .of_opening .int fun b c rest rest' hb hc hc' h => ?_
      cases hc
  | float hx =>
      refine .of_opening (.float hx) fun b c rest rest' hb hc hc' h => ?_
      cases hc
  | str =>
      refine .of_opening .str fun b c rest rest' hb hc hc' h => ?_
      obtain ⟨t, rfl⟩ := exists_of_opening?_eq hc hc'
      rw [chars_str, chars_str] at h
      obtain ⟨hchars, htail⟩ := quoted_inj h
      exact ⟨congrArg str (String.toList_inj.mp hchars), htail⟩
  | @collection items c hitems ih =>
      refine .of_opening (.collection hitems) fun b o rest rest' hb ho ho' h => ?_
      have hkind := exists_of_opening?_eq ho ho'
      match c, items with
      | .list, xs =>
          obtain ⟨ys, rfl⟩ := hkind
          cases hb with | collection hys =>
          simp only [chars_list, List.cons_append, List.append_assoc, List.cons.injEq,
            true_and] at h
          obtain ⟨rfl, htail⟩ := row_inj (fun _ => opens_chars) hitems ih hys
            (closes_bracket (by simp) _) (closes_bracket (by simp) _) h
          exact ⟨rfl, (List.cons.inj htail).2⟩
      | .tuple, xs =>
          obtain ⟨ys, rfl⟩ := hkind
          cases hb with | collection hys =>
          simp only [chars_tuple, List.cons_append, List.append_assoc, List.cons.injEq,
            true_and] at h
          obtain ⟨rfl, htail⟩ := row_inj (fun _ => opens_chars) hitems ih hys (closes_tuple xs _)
            (closes_tuple ys _) h
          exact ⟨rfl, (List.cons.inj (List.append_cancel_left htail)).2⟩
      | .set, [] =>
          obtain rfl := hkind
          exact ⟨rfl, List.append_cancel_left h⟩
      | .set, v :: vs =>
          obtain ⟨w, ws, rfl⟩ | ⟨entries, rfl⟩ := hkind
          · cases hb with | collection hws =>
            simp only [chars_set, List.cons_append, List.append_assoc, List.cons.injEq,
              true_and] at h
            obtain ⟨heq, htail⟩ := row_inj (fun _ => opens_chars) hitems ih hws
              (closes_bracket (by simp) _) (closes_bracket (by simp) _) h
            exact ⟨congrArg (collection .set) heq, (List.cons.inj htail).2⟩
          · exact absurd h (set_append_ne_dict (hitems v (by simp)) hb (.inl (ih v (by simp))))
  | dict hkeys hvalues ihk ihv =>
      have ha := NaNFree.dict hkeys hvalues
      refine .of_opening ha fun b o rest rest' hb ho ho' h => ?_
      obtain ⟨w, ws, rfl⟩ | ⟨ys, rfl⟩ := exists_of_opening?_eq ho ho'
      · cases hb with | collection hws =>
        exact absurd h.symm (set_append_ne_dict (hws w (by simp)) ha (.inr ihk))
      · have hentry := fun e he => determined_entry (ihk e he) (ihv e he)
        simp only [chars_dict, List.cons_append, List.append_assoc, List.cons.injEq, true_and] at h
        obtain ⟨rfl, htail⟩ := row_inj opens_entryChars ha.entries hentry hb.entries
          (closes_bracket (by simp) _) (closes_bracket (by simp) _) h
        exact ⟨rfl, (List.cons.inj htail).2⟩

end Value

-- Nothing is lost in what is written: no two values have one text, and no two lists of arguments.
theorem eq_of_text_eq :
    (∀ a b : Value, a.NaNFree → b.NaNFree → a.text = b.text → a = b) ∧
    ∀ s t : TestCase, (∀ v ∈ s.args, v.NaNFree) → (∀ v ∈ t.args, v.NaNFree) → s.text = t.text →
      s.args = t.args := by
  have hend : Value.Closes [] := ⟨by simp [Value.Stops], by simp⟩
  refine ⟨fun a b ha hb h => ?_, fun s t hs ht h => ?_⟩
  · have hchars : a.chars ++ [] = b.chars ++ [] := by rw [Value.chars, Value.chars, h]
    exact (Value.determined ha b [] [] hb hend.stops hend.stops hchars).1
  · have hrows : Value.row Value.chars s.args ++ [] = Value.row Value.chars t.args ++ [] := by
      rw [← Value.toList_writeItems_row, ← Value.toList_writeItems_row, ← TestCase.text,
        ← TestCase.text, h]
    have hdetermined := fun v hv => Value.determined (hs v hv)
    exact (Value.row_inj (fun _ => Value.opens_chars) hs hdetermined ht hend hend hrows).1

-- One set, with its members given in two orders.
theorem setOf_swap_of_text_eq :
    Value.setOf [.str "a', [b", .bool true] = Value.setOf [.bool true, .str "a', [b"] ∧
      [Value.setOf [.str "a', [b", .bool true]] = [Value.setOf [.bool true, .str "a', [b"]] := by
  have hfree (items : List Value) (h : ∀ v ∈ items, v.NaNFree) : (Value.setOf items).NaNFree :=
    .collection fun v hv => h v (mem_of_mem_sortDistinct hv)
  have hleft : (Value.setOf [.str "a', [b", .bool true]).NaNFree :=
    hfree _ (by simp [Value.NaNFree.str, Value.NaNFree.bool])
  have hright : (Value.setOf [.bool true, .str "a', [b"]).NaNFree :=
    hfree _ (by simp [Value.NaNFree.str, Value.NaNFree.bool])
  have htext : (Value.setOf [.str "a', [b", .bool true]).text =
      (Value.setOf [.bool true, .str "a', [b"]).text := by cbv
  have hcase : TestCase.text ⟨[Value.setOf [.str "a', [b", .bool true]]⟩ =
      TestCase.text ⟨[Value.setOf [.bool true, .str "a', [b"]]⟩ := by cbv
  obtain ⟨hvalue, hargs⟩ := eq_of_text_eq
  exact ⟨hvalue _ _ hleft hright htext,
    hargs _ _ (by simpa using hleft) (by simpa using hright) hcase⟩

end CallSuite
