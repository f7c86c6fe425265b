import CallSuite.Proofs.Clause.Printed
import CallSuite.Proofs.Spec.Params
import CallSuite.Proofs.Tree.Descent

namespace CallSuite

open CallSuite.Text

def TypeTree.delimiters : List Char := ['(', ':']

-- The tree of the type, with all domains still to come.
def Tree.bare (node : Node) : TypeTree := node.map fun _ => .empty

def Tree.TypeText (node : Node) (text : String) : Prop :=
  ∃ ts, TypeTree.Derives ts node.bare ∧ Token.Shows TypeTree.delimiters ts text.toList

structure Spellable (alphabet : OrderedSet Char) : Prop where
  plain : ∀ c ∈ alphabet, c ∉ ['(', ')', ':']
  visible : ∃ c ∈ alphabet, isBlank c = false

-- What can be written down in three texts.
structure Tree.Writable (node : Node) : Prop where
  alphabets : ∀ alphabet ∈ node.alphabets, Spellable alphabet
  domains : ∀ role, node.Listed role

section Keywords

open TypeTree

variable {alphabet : OrderedSet Char} {w : String}

theorem isWord_of_mem_keywords (hw : w ∈ keywords) : Token.IsWord delimiters w := by
  have hall : ∀ w ∈ keywords, w.toList ≠ [] ∧ w.toList.all IsNumeralChar := by decide
  obtain ⟨hne, hchars⟩ := hall w hw
  exact Token.isWord_of_isNumeralChar (by decide) hne (List.all_eq_true.mp hchars)

-- No keyword ends with the character that it starts with.
theorem Spellable.exists_spelling (h : Spellable alphabet) :
    ∃ w, w ∉ keywords ∧ (∀ c, c ∈ alphabet ↔ c ∈ w.toList) ∧ Token.IsWord delimiters w := by
  obtain ⟨c, hc, hvisible⟩ := h.visible
  have hmem (d : Char) : d ∈ c :: alphabet.toList ++ [c] ↔ d ∈ alphabet := by
    simp only [List.mem_append, List.mem_cons, OrderedSet.mem_toList, List.not_mem_nil, or_false]
    constructor
    · rintro ((rfl | hd) | rfl)
      · exact hc
      · exact hd
      · exact hc
    · exact fun hd => .inl (.inr hd)
  have hlast : (c :: alphabet.toList ++ [c]).getLast? = some c := List.getLast?_concat
  refine ⟨String.ofList (c :: alphabet.toList ++ [c]), fun hw => ?_, fun d => ?_, ?_,
    fun d hd => ?_⟩
  · have hends : ∀ w ∈ keywords, w.toList.head? ≠ w.toList.getLast? := by decide
    apply hends _ hw
    rw [String.toList_ofList, hlast]
    rfl
  · rw [String.toList_ofList, hmem]
  · rw [String.toList_ofList]
    refine ⟨by simp, by simpa using hvisible, ?_⟩
    rw [hlast]
    simpa using hvisible
  · rw [String.toList_ofList, hmem] at hd
    have hplain := h.plain d hd
    simp only [List.mem_cons, List.not_mem_nil, or_false, not_or] at hplain
    simp [Token.plain, delimiters, hplain]

end Keywords

section Texts

open TypeTree

variable {node : Node} {ts : List Token} {cs : List Char}

theorem shows_keyword {w : String} (hw : w ∈ keywords) (h : Token.Shows delimiters ts cs)
    (hts : ∀ w, ts.head? ≠ some (.word w)) :
    Token.Shows delimiters (.word w :: ts) (w.toList ++ cs) :=
  h.cons_word (isWord_of_mem_keywords hw) hts

theorem Tree.exists_typeText (h : ∀ alphabet ∈ node.alphabets, Spellable alphabet) :
    ∃ text, node.TypeText text := by
  have htokens : ∃ ts cs, Derives ts node.bare ∧ Token.Shows delimiters ts cs := by
    induction node with
    | int d => exact ⟨_, _, .int, shows_keyword (by decide) .nil (by simp)⟩
    | bool d => exact ⟨_, _, .bool, shows_keyword (by decide) .nil (by simp)⟩
    | float d => exact ⟨_, _, .float, shows_keyword (by decide) .nil (by simp)⟩
    | str alphabet d =>
        obtain ⟨w, hw, halphabet, hword⟩ := (h alphabet (by simp [alphabets])).exists_spelling
        have hspelling := Token.Shows.nil.cons_word hword (by simp)
        have hopen := hspelling.delim (c := '(') (by decide) (by decide)
        exact ⟨_, _, .str hw halphabet, shows_keyword (by decide) hopen (by simp)⟩
    | collection c d item ih =>
        obtain ⟨ts, cs, hts, hcs⟩ := ih h
        have hopen := hcs.delim (c := '(') (by decide) (by decide)
        have hname : c.name ∈ keywords := by cases c <;> decide
        exact ⟨_, _, .collection c hts, shows_keyword hname hopen (by simp)⟩
    | dict d key value ihk ihv =>
        obtain ⟨hkey, hvalue⟩ := List.forall_mem_append.mp h
        obtain ⟨ks, cs, hks, hcs⟩ := ihk hkey
        obtain ⟨vs, ds, hvs, hds⟩ := ihv hvalue
        have hcolon := hds.delim (c := ':') (by decide) (by decide)
        have hchildren := hcs.append hcolon (by simp)
        have hopen := hchildren.delim (c := '(') (by decide) (by decide)
        exact ⟨_, _, .dict hks hvs, shows_keyword (by decide) hopen (by simp)⟩
  obtain ⟨ts, cs, hts, hcs⟩ := htokens
  exact ⟨String.ofList cs, ts, hts, String.toList_ofList ▸ hcs⟩

theorem Tree.typeText_iff {text : String} :
    node.TypeText text ↔ Derives (tokens text) node.bare := by
  constructor
  · rintro ⟨ts, hts, hshows⟩
    rwa [← hshows.split_eq] at hts
  · exact fun h => ⟨_, h, Token.shows_split _ _⟩

theorem Tree.unfilled_map {role : Role} (node : Node) (f : {α : Type} → Domains α → Slots α)
    (hf : ∀ {α : Type} (d : Domains α), (f d).get role = none) : (node.map f).Unfilled role := by
  induction node with
  | int d | bool d | float d | str alphabet d => exact hf d
  | collection c d item ih => exact ⟨hf d, ih⟩
  | dict d key value ihk ihv => exact ⟨hf d, ihk, ihv⟩

-- A text that says what the domains are is one that a tree without them takes them from.
theorem Tree.DomainText.decorate {role : Role} {text : String} (h : node.DomainText role text)
    (hnode : node.Listed role) (f : {α : Type} → Domains α → Slots α)
    (hf : ∀ {α : Type} (d : Domains α), (f d).get role = none) :
    TypeTree.decorate (node.map f) role text =
      (node.map fun d => (f d).set (d.get role) role, .ok ()) := by
  have hwritten := (domainText_iff.mp h).written hnode f
  exact decorate_of_written (node.unfilled_map f hf) hwritten

theorem compileParam_of_texts {type exhaustive random : String} (h : ∀ role, node.Listed role)
    (htype : node.TypeText type) (hexhaustive : node.DomainText .exhaustive exhaustive)
    (hrandom : node.DomainText .random random) :
    compileParam type exhaustive random = .ok node := by
  have hbare : ofText type = .ok node.bare := by
    rw [ofText, mapError_eq_ok, ofTokens_eq_ok_iff]
    exact Tree.typeText_iff.mp htype
  have hhalf := hexhaustive.decorate (h .exhaustive) (fun _ => .empty) fun _ => rfl
  have hfull := hrandom.decorate (h .random) (fun d => ⟨some d.exhaustive, none⟩) fun _ => rfl
  exact compileParam_eq_ok.mpr ⟨_, _, _, hbare, hhalf, hfull, Tree.seal_eq_ok.mpr rfl⟩

end Texts

-- Every tree that can be written down is the one that some texts are compiled to, and it is the
-- one that all the texts are compiled to by which it may be written down.
theorem compileParam_reads_printed (node : Node) (h : node.Writable) :
    (∃ type exhaustive random, node.TypeText type ∧ node.DomainText .exhaustive exhaustive ∧
      node.DomainText .random random ∧ compileParam type exhaustive random = .ok node) ∧
    ∀ type exhaustive random, node.TypeText type → node.DomainText .exhaustive exhaustive →
      node.DomainText .random random → compileParam type exhaustive random = .ok node := by
  have hcompile (type exhaustive random : String) (htype : node.TypeText type)
      (hexhaustive : node.DomainText .exhaustive exhaustive)
      (hrandom : node.DomainText .random random) :
      compileParam type exhaustive random = .ok node :=
    compileParam_of_texts h.domains htype hexhaustive hrandom
  obtain ⟨type, htype⟩ := Tree.exists_typeText h.alphabets
  obtain ⟨exhaustive, hexhaustive⟩ := Tree.exists_domainText (h.domains .exhaustive)
  obtain ⟨random, hrandom⟩ := Tree.exists_domainText (h.domains .random)
  exact ⟨⟨type, exhaustive, random, htype, hexhaustive, hrandom,
    hcompile type exhaustive random htype hexhaustive hrandom⟩, hcompile⟩

def dictOfNames : Node :=
  .dict ⟨.cons 1 [], .cons 0 [2]⟩ (.str ⟨['a', 'b'], by decide⟩ ⟨.cons 1 [2], .cons 2 []⟩)
    (.int ⟨.cons 0 [1], .cons (-1) []⟩)

-- The alphabet is spelled with a character too many, the lengths are not written alike, and no
-- parenthesis is closed but one.
theorem compileParam_dictOfNames : dictOfNames.Writable ∧
    compileParam "dict(str(bab):int" "[1]([1,2e0]:0~1)" "[0,2](2~2:[-1]" = .ok dictOfNames := by
  have hwritable : dictOfNames.Writable := by
    refine ⟨?_, fun role => ?_⟩
    · rintro alphabet (_ | ⟨_, ⟨⟩⟩)
      refine ⟨fun c hc => ?_, 'a', by decide, by decide⟩
      change c ∈ ['a', 'b'] at hc
      grind
    · cases role with
      | exhaustive => exact ⟨⟨by decide, by decide⟩, ⟨by decide, by decide⟩, by decide, by decide⟩
      | random => exact ⟨⟨by decide, by decide⟩, ⟨by decide, by decide⟩, by decide, by decide⟩
  have hzero : Binary64.read? "0".toList = some (.ofInt 0) := by decide +kernel
  have hone : Binary64.read? "1".toList = some (.ofInt 1) := by decide +kernel
  have htwo : Binary64.read? "2".toList = some (.ofInt 2) := by decide +kernel
  have hdecimal : Binary64.read? "2e0".toList = some (.ofInt 2) := by decide +kernel
  have hless : Binary64.read? "-1".toList = some (.ofInt (-1)) := by decide +kernel
  have htype : dictOfNames.TypeText "dict(str(bab):int" := by
    have htokens : TypeTree.tokens "dict(str(bab):int" = .word "dict" :: .delim '(' ::
        ([.word "str", .delim '(', .word "bab"] ++ .delim ':' :: [.word "int"]) := by cbv
    rw [Tree.typeText_iff, htokens]
    refine .dict (.str (by decide) fun c => ?_) .int
    change c ∈ ['a', 'b'] ↔ c ∈ ['b', 'a', 'b']
    grind
  have hexhaustive : dictOfNames.DomainText .exhaustive "[1]([1,2e0]:0~1)" := by
    have htokens : Clause.tokens "[1]([1,2e0]:0~1)" =
        [.delim '[', .word "1", .delim ']'] ++ .delim '(' ::
          ([.delim '[', .word "1", .delim ',', .word "2e0", .delim ']'] ++ .delim ':' ::
            [.word "0", .delim '~', .word "1"]) := by cbv
    have hsize : Clause.Sizes .dict _ [1] := .inl ⟨_, .mk (.last hone), by decide +kernel⟩
    have hlengths : Clause.Sizes .str _ [1, 2] :=
      .inl ⟨_, .mk (.cons hone (.last hdecimal)), by decide +kernel⟩
    have hrange : Clause.Spans [.word "0", .delim '~', .word "1"] _ :=
      .mk (a := 0) (b := 1) (by decide) (by decide) (by decide) (by decide)
    rw [Tree.domainText_iff, htokens]
    exact .dict hsize (.str hlengths) (.int (.inr hrange))
  have hrandom : dictOfNames.DomainText .random "[0,2](2~2:[-1]" := by
    have htokens : Clause.tokens "[0,2](2~2:[-1]" =
        [.delim '[', .word "0", .delim ',', .word "2", .delim ']'] ++ .delim '(' ::
          ([.word "2", .delim '~', .word "2"] ++ .delim ':' ::
            [.delim '[', .word "-1", .delim ']']) := by cbv
    have hsizes : Clause.Sizes .dict _ [0, 2] :=
      .inl ⟨_, .mk (.cons hzero (.last htwo)), by decide +kernel⟩
    have hlength : Clause.Spans [.word "2", .delim '~', .word "2"] _ :=
      .mk (a := 2) (b := 2) (by decide) (by decide) (by decide) (by decide)
    have hentry : Clause.Lists Clause.intEntry _ [-1] := ⟨_, .mk (.last hless), by decide +kernel⟩
    rw [Tree.domainText_iff, htokens]
    exact .dict hsizes (.str (.inr hlength)) (.int (.inl hentry))
  obtain ⟨_, hcompile⟩ := compileParam_reads_printed dictOfNames hwritable
  exact ⟨hwritable, hcompile _ _ _ htype hexhaustive hrandom⟩

end CallSuite
