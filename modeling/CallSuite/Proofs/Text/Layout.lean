import CallSuite.Proofs.Text.Token
import Mathlib.Logic.Relation

namespace CallSuite.Text.Token

-- What may delimit: neither white space nor the closing parenthesis.
structure Delimits (delims : List Char) : Prop where
  not_blank : ∀ d ∈ delims, isBlank d = false
  not_close : ')' ∉ delims

-- One pass from the left: the tokens that are complete, and the characters after them.
def readNext (delims : List Char) : List Token × List Char → Char → List Token × List Char
  | (ts, cs), c =>
    if c = ')' then (ts ++ consWord cs [], [])
    else if c ∈ delims then (ts ++ consWord cs [.delim c], [])
    else (ts, cs ++ [c])

def splitFromLeft (delims : List Char) (text : List Char) : List Token :=
  let (ts, cs) := text.foldl (readNext delims) ([], [])
  ts ++ consWord cs []

-- The tokens written one after the other, with nothing but a closing parenthesis between them.
def joined (ts : List Token) : List Char := [')'].intercalate (ts.map (·.text.toList))

def IsFiller (c : Char) : Prop := c = ')' ∨ isBlank c

theorem forall_isFiller_close : ∀ c ∈ [')'], IsFiller c := by simp [IsFiller]

-- Where no word goes on: at an end of the text, or next to a delimiter or a closing parenthesis.
def AtEdge (delims before after : List Char) : Prop :=
  (∀ c ∈ before.getLast?, plain delims c = false) ∨ ∀ c ∈ after.head?, plain delims c = false

-- Closing parentheses and white space are put in at such a place.
inductive Loosens (delims : List Char) : List Char → List Char → Prop where
  | put (hw : ∀ c ∈ w, IsFiller c) (hedge : AtEdge delims cs ds) :
      Loosens delims (cs ++ ds) (cs ++ (w ++ ds))

-- They are put in and taken out any number of times.
def Relaid (delims : List Char) : List Char → List Char → Prop :=
  Relation.EqvGen (Loosens delims)

variable {delims cs ds w : List Char} {ts : List Token} {c : Char}

section Seams

theorem Delimits.plain_of_isBlank (h : Delimits delims) (hc : isBlank c) : plain delims c := by
  have hclose : c ≠ ')' := by
    rintro rfl
    exact absurd hc (by decide)
  have hdelim : c ∉ delims := by
    intro hmem
    rw [h.not_blank c hmem] at hc
    cases hc
  simp [plain, hclose, hdelim]

theorem Delimits.ne_close (h : Delimits delims) (hc : c ∈ delims) : c ≠ ')' := by
  rintro rfl
  exact h.not_close hc

theorem takeWhile_plain_of_head (h : ∀ c ∈ cs.head?, plain delims c = false) :
    cs.takeWhile (plain delims) = [] := by
  cases cs with
  | nil => rfl
  | cons c cs => exact List.takeWhile_cons_of_neg (by simp [h c rfl])

-- Two texts are read on their own where no word of the first goes on in the second.
theorem split_append (h : ∀ c ∈ ds.takeWhile (plain delims), isBlank c) :
    split delims (cs ++ ds) = split delims cs ++ split delims ds :=
  ((shows_split delims cs).append_of_blank (shows_split delims ds) h).split_eq

theorem split_append_of_head (h : ∀ c ∈ ds.head?, plain delims c = false) :
    split delims (cs ++ ds) = split delims cs ++ split delims ds :=
  split_append (by simp [takeWhile_plain_of_head h])

theorem split_append_close (cs ds : List Char) :
    split delims (cs ++ ')' :: ds) = split delims cs ++ split delims ds := by
  rw [split_append_of_head (by simp [plain]), split_close]

theorem split_append_delim (h : Delimits delims) (hc : c ∈ delims) (cs ds : List Char) :
    split delims (cs ++ c :: ds) = split delims cs ++ .delim c :: split delims ds := by
  rw [split_append_of_head (by simp [plain, hc]), split_delim hc (h.ne_close hc)]

theorem split_append_of_last (h : Delimits delims)
    (hlast : ∀ c ∈ cs.getLast?, plain delims c = false) (ds : List Char) :
    split delims (cs ++ ds) = split delims cs ++ split delims ds := by
  rcases cs.eq_nil_or_concat' with rfl | ⟨cs, c, rfl⟩
  · rfl
  have hc : c = ')' ∨ c ∈ delims := by
    have hstop : plain delims c = false := hlast c (by simp)
    simp only [plain, Bool.and_eq_false_iff, decide_eq_false_iff_not, ne_eq, not_not] at hstop
    exact hstop
  rw [List.append_assoc, List.singleton_append]
  rcases hc with rfl | hc
  · rw [split_append_close, split_append_close, List.append_assoc]
    rfl
  · rw [split_append_delim h hc, split_append_delim h hc, List.append_assoc]
    rfl

theorem split_of_plain (h : ∀ c ∈ cs, plain delims c) : split delims cs = consWord cs [] := by
  have hscan := foldr_push_append h []
  rw [List.append_nil] at hscan
  rw [split_eq, hscan]
  simp

theorem split_filler_append (h : Delimits delims) (hw : ∀ c ∈ w, IsFiller c) (cs : List Char) :
    split delims (w ++ cs) = split delims cs := by
  induction w with
  | nil => rfl
  | cons c w ih =>
      obtain ⟨hc, hrest⟩ := List.forall_mem_cons.mp hw
      rw [List.cons_append]
      rcases hc with rfl | hblank
      · rw [split_close, ih hrest]
      · rw [split_blank hblank (h.plain_of_isBlank hblank), ih hrest]

theorem split_append_filler (h : Delimits delims) (hw : ∀ c ∈ w, IsFiller c) (cs : List Char) :
    split delims (cs ++ w) = split delims cs := by
  have hrun : ∀ c ∈ w.takeWhile (plain delims), isBlank c := by
    intro c hc
    refine (hw c (List.takeWhile_subset _ hc)).resolve_left ?_
    rintro rfl
    have hplain := List.mem_takeWhile_imp hc
    simp [plain] at hplain
  have hnone : split delims w = [] := by
    have hdropped := split_filler_append h hw []
    rwa [List.append_nil] at hdropped
  rw [split_append hrun, hnone, List.append_nil]

theorem consWord_eq_append (cs : List Char) (ts : List Token) :
    consWord cs ts = consWord cs [] ++ ts := by
  unfold consWord
  split <;> rfl

-- What the pass has read so far stays, and the characters it holds are the start of a word.
theorem foldl_readNext (h : Delimits delims) (hw : ∀ c ∈ w, plain delims c) (ts : List Token)
    (cs : List Char) :
    (cs.foldl (readNext delims) (ts, w)).1 ++ consWord (cs.foldl (readNext delims) (ts, w)).2 [] =
      ts ++ split delims (w ++ cs) := by
  induction cs generalizing ts w with
  | nil => rw [List.append_nil, split_of_plain hw, List.foldl_nil]
  | cons c cs ih =>
      rw [List.foldl_cons, readNext]
      by_cases hclose : c = ')'
      · subst hclose
        rw [if_pos rfl, ih (by simp), split_append_close, split_of_plain hw, List.nil_append,
          List.append_assoc]
      by_cases hc : c ∈ delims
      · rw [if_neg hclose, if_pos hc, ih (by simp), split_append_delim h hc, split_of_plain hw,
          consWord_eq_append w [.delim c], List.nil_append]
        simp only [List.append_assoc, List.singleton_append]
      · have hplain : ∀ d ∈ w ++ [c], plain delims d :=
          List.forall_mem_append.mpr ⟨hw, by simp [plain, hclose, hc]⟩
        rw [if_neg hclose, if_neg hc, ih hplain, List.append_assoc, List.singleton_append]

theorem splitFromLeft_eq (h : Delimits delims) (cs : List Char) :
    splitFromLeft delims cs = split delims cs :=
  foldl_readNext h (List.forall_mem_nil _) [] cs

end Seams

section Joined

theorem toList_text_delim (c : Char) : (Token.delim c).text.toList = [c] := by simp [text]

theorem split_text {t : Token} (h : Delimits delims) (ht : IsToken delims t) :
    split delims t.text.toList = [t] := by
  cases t with
  | delim c =>
      rw [toList_text_delim, split_delim ht (h.ne_close ht)]
      rfl
  | word w =>
      have hword : split delims (w.toList ++ []) = [.word w] := split_word ht (by simp)
      rwa [List.append_nil] at hword

theorem joined_singleton (t : Token) : joined [t] = t.text.toList := List.intercalate_singleton

theorem joined_cons_cons (t u : Token) (ts : List Token) :
    joined (t :: u :: ts) = t.text.toList ++ ')' :: joined (u :: ts) := by
  simp [joined, List.intercalate_cons_cons]

theorem split_joined (h : Delimits delims) (hts : ∀ t ∈ ts, IsToken delims t) :
    split delims (joined ts) = ts := by
  induction ts with
  | nil => rfl
  | cons t ts ih =>
      obtain ⟨ht, hrest⟩ := List.forall_mem_cons.mp hts
      cases ts with
      | nil => rw [joined_singleton, split_text h ht]
      | cons u us =>
          rw [joined_cons_cons, split_append_close, split_text h ht, ih hrest]
          rfl

end Joined

section Relaid

theorem Loosens.split_eq (h : Delimits delims) (hloosens : Loosens delims cs ds) :
    split delims cs = split delims ds := by
  cases hloosens with
  | @put w cs ds hw hedge =>
      rcases hedge with hlast | hhead
      · rw [split_append_of_last h hlast, split_append_of_last h hlast, split_filler_append h hw]
      · rw [split_append_of_head hhead, ← List.append_assoc, split_append_of_head hhead,
          split_append_filler h hw]

theorem Relaid.split_eq (h : Delimits delims) (hrelaid : Relaid delims cs ds) :
    split delims cs = split delims ds := by
  induction hrelaid with
  | rel _ _ hloosens => exact hloosens.split_eq h
  | refl _ => rfl
  | symm _ _ _ ih => exact ih.symm
  | trans _ _ _ _ _ ih ih' => exact ih.trans ih'

theorem Loosens.relaid (h : Loosens delims cs ds) : Relaid delims cs ds := .rel _ _ h

theorem Relaid.symm (h : Relaid delims cs ds) : Relaid delims ds cs := Relation.EqvGen.symm _ _ h

theorem Relaid.trans {es : List Char} (h : Relaid delims cs ds) (h' : Relaid delims ds es) :
    Relaid delims cs es := Relation.EqvGen.trans _ _ _ h h'

-- In front there may be any text at whose end no word is left open.
theorem Relaid.append_left {before : List Char}
    (hlast : ∀ c ∈ before.getLast?, plain delims c = false) (h : Relaid delims cs ds) :
    Relaid delims (before ++ cs) (before ++ ds) := by
  induction h with
  | rel _ _ hloosens =>
      cases hloosens with
      | @put w cs ds hw hedge =>
          rw [← List.append_assoc, ← List.append_assoc]
          refine (Loosens.put hw (hedge.imp_left fun hcs c hc => ?_)).relaid
          rw [List.getLast?_append] at hc
          cases hend : cs.getLast? with
          | none => exact hlast c (by simpa [hend] using hc)
          | some d => exact hcs c (by simpa [hend] using hc)
  | refl _ => exact .refl _
  | symm _ _ _ ih => exact ih.symm
  | trans _ _ _ _ _ ih ih' => exact ih.trans ih'

theorem relaid_joined_cons (delims : List Char) (t : Token) (ts : List Token) :
    Relaid delims (t.text.toList ++ ')' :: joined ts) (joined (t :: ts)) := by
  cases ts with
  | nil =>
      have hedge : AtEdge delims t.text.toList [] := .inr (by simp)
      have hput := (Loosens.put forall_isFiller_close hedge).relaid.symm
      simp only [List.append_nil] at hput
      rw [joined_singleton]
      exact hput
  | cons u us =>
      rw [joined_cons_cons]
      exact .refl _

-- A parenthesis in front of blanks is at no edge of its own. It is put in at the edge behind them,
-- after they have been taken out, and together with them.
theorem relaid_close (hend : ∀ c ∈ cs.takeWhile (plain delims), isBlank c) (before : List Char) :
    Relaid delims (before ++ cs) (before ++ ')' :: cs) := by
  have hsplit : cs = cs.takeWhile (plain delims) ++ cs.dropWhile (plain delims) :=
    (List.takeWhile_append_dropWhile).symm
  have hedge : AtEdge delims before (cs.dropWhile (plain delims)) := by
    refine .inr fun c hc => ?_
    have hstop := List.head?_dropWhile_not (plain delims) cs
    rwa [Option.mem_def.mp hc] at hstop
  have hblanks : ∀ c ∈ cs.takeWhile (plain delims), IsFiller c := fun c hc => .inr (hend c hc)
  have hclosed : ∀ c ∈ ')' :: cs.takeWhile (plain delims), IsFiller c :=
    List.forall_mem_cons.mpr ⟨.inl rfl, hblanks⟩
  have hbare := (Loosens.put hblanks hedge).relaid
  have hput := (Loosens.put hclosed hedge).relaid
  rw [List.cons_append, ← hsplit] at hput
  rw [← hsplit] at hbare
  exact hbare.symm.trans hput

theorem relaid_filler_append (hw : ∀ c ∈ w, IsFiller c) (cs : List Char) :
    Relaid delims (w ++ cs) cs := by
  have hedge : AtEdge delims [] cs := .inl (by simp)
  exact (Loosens.put hw hedge).relaid.symm

-- Each text is laid out anew as its tokens with nothing that could be left out.
theorem Shows.relaid_joined (h : Shows delims ts cs) : Relaid delims cs (joined ts) := by
  induction h with
  | nil => exact .refl _
  | close _ ih => exact (relaid_filler_append forall_isFiller_close _).trans ih
  | @blank c _ _ hc _ _ ih =>
      have hfiller : ∀ d ∈ [c], IsFiller d := by simp [IsFiller, hc]
      exact (relaid_filler_append hfiller _).trans ih
  | @delim c ts cs hc _ _ ih =>
      have hstop : ∀ d ∈ [c].getLast?, plain delims d = false := by simp [plain, hc]
      have hput : Relaid delims ([c] ++ joined ts) ([c] ++ ([')'] ++ joined ts)) :=
        (Loosens.put forall_isFiller_close (.inl hstop)).relaid
      have hlast := relaid_joined_cons delims (.delim c) ts
      rw [toList_text_delim] at hlast
      exact (ih.append_left hstop).trans (hput.trans hlast)
  | @word w ts cs _ hend _ ih =>
      have hstop : ∀ c ∈ (w.toList ++ [')']).getLast?, plain delims c = false := by simp [plain]
      have hrest := ih.append_left hstop
      simp only [List.append_assoc, List.singleton_append] at hrest
      exact (relaid_close hend w.toList).trans (hrest.trans (relaid_joined_cons _ (.word w) ts))

-- Two texts are laid out differently just when they have the same tokens.
theorem relaid_iff (h : Delimits delims) :
    Relaid delims cs ds ↔ split delims cs = split delims ds := by
  refine ⟨fun hrelaid => hrelaid.split_eq h, fun heq => ?_⟩
  have hfirst := (shows_split delims cs).relaid_joined
  rw [heq] at hfirst
  exact hfirst.trans (shows_split delims ds).relaid_joined.symm

end Relaid

-- A reader of descriptors to which their layout is of no matter. `onePass` alone says what it reads
-- a text to, and so do `word`, `delim` and `close` together. By `relaid`, texts that are read to
-- the same tokens differ in nothing but their layout.
structure LayoutFree (delims : List Char) (tokens : String → List Token) : Prop where
  onePass : ∀ a, tokens a = splitFromLeft delims a.toList
  word : ∀ a, (∀ c ∈ a.toList, plain delims c) → tokens a = consWord a.toList []
  delim : ∀ a b, ∀ d ∈ delims, tokens (a ++ d.toString ++ b) = tokens a ++ [.delim d] ++ tokens b
  close : ∀ a b, tokens (a ++ ")" ++ b) = tokens a ++ tokens b
  blank : ∀ w a w', (∀ c ∈ w.toList, isBlank c) → (∀ c ∈ w'.toList, isBlank c) →
    tokens (w ++ a ++ w') = tokens a
  isToken : ∀ a, ∀ t ∈ tokens a, IsToken delims t
  joined : ∀ a, tokens (")".intercalate ((tokens a).map text)) = tokens a
  beside : ∀ a w b, ∀ d ∈ delims, (∀ c ∈ w.toList, IsFiller c) →
    tokens (a ++ w ++ d.toString ++ b) = tokens (a ++ d.toString ++ b) ∧
      tokens (a ++ d.toString ++ w ++ b) = tokens (a ++ d.toString ++ b)
  relaid : ∀ a b, Relaid delims a.toList b.toList ↔ tokens a = tokens b

theorem layoutFree_split (h : Delimits delims) :
    LayoutFree delims fun s => split delims s.toList where
  onePass a := (splitFromLeft_eq h a.toList).symm
  word a ha := split_of_plain ha
  delim a b d hd := by
    have hchars : (a ++ d.toString ++ b).toList = a.toList ++ d :: b.toList := by simp
    rw [hchars, split_append_delim h hd, List.append_assoc]
    rfl
  close a b := by
    have hchars : (a ++ ")" ++ b).toList = a.toList ++ ')' :: b.toList := by simp
    rw [hchars, split_append_close]
  blank w a w' hw hw' := by
    rw [String.toList_append, String.toList_append,
      split_append_filler h fun c hc => .inr (hw' c hc),
      split_filler_append h fun c hc => .inr (hw c hc)]
  isToken a := (shows_split delims a.toList).isToken
  joined a := by
    have hchars : (")".intercalate ((split delims a.toList).map text)).toList =
        Token.joined (split delims a.toList) := by
      simp [Token.joined, String.toList_intercalate, Function.comp_def]
    rw [hchars, split_joined h (shows_split delims a.toList).isToken]
  beside a w b d hd hw := by
    have hbefore : AtEdge delims a.toList ([d] ++ b.toList) := .inr (by simp [plain, hd])
    have hafter : AtEdge delims (a.toList ++ [d]) b.toList := .inl (by simp [plain, hd])
    have hchars : d.toString.toList = [d] := by simp
    simp only [String.toList_append, hchars]
    constructor
    · rw [List.append_assoc, List.append_assoc, List.append_assoc]
      exact ((Loosens.put hw hbefore).split_eq h).symm
    · rw [List.append_assoc _ w.toList]
      exact ((Loosens.put hw hafter).split_eq h).symm
  relaid a b := relaid_iff h

end CallSuite.Text.Token
