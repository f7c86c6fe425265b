import CallSuite.Proofs.Clause.Attempts
import CallSuite.Proofs.Clause.Entry
import CallSuite.Proofs.Clause.Faults
import CallSuite.Proofs.Random.Drawable
import CallSuite.Proofs.Spec.Params
import CallSuite.Proofs.Spec.Phases
import CallSuite.Proofs.Text.Token
import CallSuite.Random.Generator

namespace CallSuite

open CallSuite.Text

-- An error that a change of some text can mend. No node is left without a domain, and no slot gets
-- nothing or gets a second domain.
def CompileError.InText : CompileError → Prop
  | .spec _ | .shape _ | .type _ => True
  | .domain e => e.fault.InText
  | .seal _ => False

section Errors

open TypeTree

variable {type exhaustive random : String} {e : CompileError}

theorem decorated_inText {role : Role} {tree : TypeTree} {text : String}
    (htree : tree.Unfilled role) (h : tree.decorated role text = .error e) : e.InText := by
  unfold decorated at h
  split at h <;> cases h
  next hdecorate => exact decorate_inText htree (congrArg Prod.snd hdecorate)

theorem unfilled_of_decorated_eq_ok {role other : Role} {tree tree' : TypeTree} {text : String}
    (hne : other ≠ role) (h : tree.decorated role text = .ok tree') (htree : tree.Unfilled other) :
    tree'.Unfilled other := by
  rw [Tree.unfilled_iff] at htree ⊢
  rwa [domains_of_decorated_eq_ok hne h]

theorem compileParam_inText (h : compileParam type exhaustive random = .error e) : e.InText := by
  obtain herror | ⟨bare, hbare, h⟩ := bind_eq_error.mp h
  · obtain ⟨_, _, rfl⟩ := mapError_eq_error.mp herror
    trivial
  rw [mapError_eq_ok] at hbare
  obtain herror | ⟨half, hhalf, h⟩ := bind_eq_error.mp h
  · exact decorated_inText (unfilled_of_ofText hbare .exhaustive) herror
  obtain herror | ⟨full, hfull, h⟩ := bind_eq_error.mp h
  · have hunfilled := unfilled_of_ofText hbare .random
    exact decorated_inText (unfilled_of_decorated_eq_ok (by decide) hhalf hunfilled) herror
  obtain ⟨node, hnode⟩ := exists_seal_of_decorated hhalf hfull
  obtain ⟨_, hseal, _⟩ := mapError_eq_error.mp h
  rw [hnode] at hseal
  cases hseal

-- The first parameter that is refused is refused for the same reason on its own.
theorem Spec.paramAt_eq_error {s : Spec} {i : Nat}
    (h : s.bareAt i = .error e ∨ s.halfAt i = .error e ∨ s.fullAt i = .error e) :
    s.paramAt i = .error e := by
  have hhalf (hbare : s.bareAt i = .error e) : s.halfAt i = .error e :=
    bind_eq_error.mpr (.inl hbare)
  have hfull (hhalf : s.halfAt i = .error e) : s.fullAt i = .error e :=
    bind_eq_error.mpr (.inl hhalf)
  rw [paramAt_eq, bind_eq_error]
  rcases h with h | h | h
  · exact .inl (hfull (hhalf h))
  · exact .inl (hfull h)
  · exact .inl h

theorem Spec.compile_inText {s : Spec} (h : s.compile = .error e) : e.InText := by
  by_cases hshape : s.WellShaped
  · rw [compile_eq_error hshape, compileTrees_eq_error hshape] at h
    have hparam : ∃ i, s.paramAt i = .error e := by
      rcases h with ⟨i, _, he, _⟩ | ⟨_, i, _, he, _⟩ | ⟨_, i, _, he, _⟩
      · exact ⟨i, paramAt_eq_error (.inl he)⟩
      · exact ⟨i, paramAt_eq_error (.inr (.inl he))⟩
      · exact ⟨i, paramAt_eq_error (.inr (.inr he))⟩
    obtain ⟨i, hi⟩ := hparam
    exact compileParam_inText hi
  · rw [compile_of_not_wellShaped hshape] at h
    cases h
    trivial

end Errors

-- There is something to try and to draw at each node, no length is too great, and each string has
-- characters to be made of.
structure Tree.Sound (node : Node) : Prop where
  domains : ∀ role, node.All (fun d => (d.get role).toList ≠ []) (fun d => (d.get role).toList ≠ [])
    (fun d => (d.get role).toList ≠ [])
    fun d => (d.get role).toList ≠ [] ∧ ∀ n ∈ (d.get role).toList, n ≤ maxRangeLength
  alphabets : ∀ alphabet ∈ node.alphabets,
    alphabet.isEmpty = false ∧ ∀ c ∈ alphabet, c ∉ ['(', ')', ':']

-- The strings of a value have lengths that the node has for drawing.
def Tree.DrawnLengths : Node → Value → Prop
  | .int _, .int _ => True
  | .bool _, .bool _ => True
  | .float _, .float _ => True
  | .str _ d, .str s => s.length ∈ d.random.toList
  | .collection _ _ item, .collection _ members => ∀ v ∈ members, item.DrawnLengths v
  | .dict _ key value, .dict entries =>
    ∀ e ∈ entries, key.DrawnLengths e.1 ∧ value.DrawnLengths e.2
  | _, _ => False

section Nodes

variable {type exhaustive random : String} {node : Node}

theorem TypeTree.Derives.exists_word {ts : List Token} {tree : TypeTree}
    (h : TypeTree.Derives ts tree) {alphabet : OrderedSet Char} (hmem : alphabet ∈ tree.alphabets) :
    ∃ w, .word w ∈ ts ∧ ∀ c, c ∈ alphabet ↔ c ∈ w.toList := by
  induction h with
  | int | bool | float => cases hmem
  | str _ halphabet =>
      obtain rfl := List.mem_singleton.mp hmem
      exact ⟨_, by simp, halphabet⟩
  | collection c _ ih =>
      obtain ⟨w, hw, hchars⟩ := ih hmem
      exact ⟨w, by simp [hw], hchars⟩
  | dict _ _ ihk ihv =>
      rcases List.mem_append.mp hmem with hkey | hvalue
      · obtain ⟨w, hw, hchars⟩ := ihk hkey
        exact ⟨w, by simp [hw], hchars⟩
      · obtain ⟨w, hw, hchars⟩ := ihv hvalue
        exact ⟨w, by simp [hw], hchars⟩

theorem Clause.Entries.ne_nil {α : Type} [BEq α] [LawfulBEq α] [Inhabited α]
    {entry : Binary64 → Except DomainFault α} {ts : List Token} {ys : List α}
    (h : Entries entry ts ys) : ys ≠ [] := by
  obtain ⟨xs, hxs, hys⟩ := entries_iff.mp h
  rintro rfl
  exact hxs.ne_nil hys.eq_nil

theorem Clause.Entries.le_maxRangeLength {kind : Kind} {ts : List Token} {ys : List Nat}
    (h : Entries (sizeEntry kind) ts ys) : ∀ n ∈ ys, n ≤ maxRangeLength := by
  obtain ⟨xs, _, zs, hzs, rfl⟩ := h
  intro n hn
  rw [List.mem_eraseDups] at hn
  have hmem : .ok n ∈ xs.map (sizeEntry kind) := hzs ▸ List.mem_map_of_mem hn
  obtain ⟨x, _, hx⟩ := List.mem_map.mp hmem
  exact (sizeEntry_eq_ok.mp hx).2

theorem Clause.Written.domains_sound {role : Role} {tree tree' : TypeTree} {ts : List Token}
    (h : Written role tree ts tree') :
    (tree'.domains role).All (Slot.Holds (· ≠ [])) (Slot.Holds (· ≠ [])) (Slot.Holds (· ≠ []))
      (Slot.Holds fun ys => ys ≠ [] ∧ ∀ n ∈ ys, n ≤ maxRangeLength) :=
  h.domains_all List.infix_rfl (fun _ _ _ h => h.ne_nil) (fun _ _ _ h => h.ne_nil)
    (fun _ _ _ h => h.ne_nil) fun _ _ _ _ h => ⟨h.ne_nil, h.le_maxRangeLength⟩

-- The alphabet of a string is that of a word, and a word has a character and no delimiter.
theorem alphabets_of_ofText {tree : TypeTree} (h : TypeTree.ofText type = .ok tree) :
    ∀ alphabet ∈ tree.alphabets,
      alphabet.isEmpty = false ∧ ∀ c ∈ alphabet, c ∉ ['(', ')', ':'] := by
  rw [TypeTree.ofText, mapError_eq_ok, TypeTree.ofTokens_eq_ok_iff] at h
  intro alphabet hmem
  obtain ⟨w, hw, hchars⟩ := h.exists_word hmem
  have hword := Token.isWord_of_mem_split hw
  constructor
  · obtain ⟨c, hc⟩ := List.exists_mem_of_ne_nil _ hword.trimmed.ne_nil
    have hmember : c ∈ alphabet.toList := (hchars c).mpr hc
    exact List.isEmpty_eq_false_iff.mpr (List.ne_nil_of_mem hmember)
  · intro c hc
    have hplain := hword.plain c ((hchars c).mp hc)
    simp only [Token.plain, Bool.and_eq_true, decide_eq_true_eq, List.mem_cons, List.not_mem_nil,
      or_false, not_or] at hplain ⊢
    obtain ⟨hclose, hopen, hcolon⟩ := hplain
    exact ⟨hopen, hclose, hcolon⟩

theorem sound_of_compileParam_eq_ok (h : compileParam type exhaustive random = .ok node) :
    node.Sound := by
  obtain ⟨bare, half, full, hbare, halphabets, hhalf, hexhaustive, hfull, hrandom⟩ :=
    written_of_compileParam_eq_ok h
  refine ⟨fun role => ?_, halphabets ▸ alphabets_of_ofText hbare⟩
  cases role with
  | exhaustive =>
      have hall := hhalf.domains_sound
      rwa [hexhaustive, Tree.all_map] at hall
  | random =>
      have hall := hfull.domains_sound
      rwa [hrandom, Tree.all_map] at hall

theorem Tree.Drawable.drawnLengths {v : Value} (h : node.Drawable v)
    (halphabets : ∀ alphabet ∈ node.alphabets, alphabet.isEmpty = false) :
    node.DrawnLengths v := by
  induction node generalizing v with
  | int d | bool d | float d => cases v <;> trivial
  | str alphabet d =>
      cases v with
      | str s =>
          have hlength := h.2
          rw [halphabets alphabet (by simp [alphabets])] at hlength
          exact hlength
      | _ => cases h
  | collection c d item ih =>
      cases v with
      | collection c' members => exact fun v hv => ih (h.2.2 v hv) halphabets
      | _ => cases h
  | dict d key value ihk ihv =>
      cases v with
      | dict entries =>
          obtain ⟨hkey, hvalue⟩ := List.forall_mem_append.mp halphabets
          exact fun e he => ⟨ihk (h.2.2 e he).1 hkey, ihv (h.2.2 e he).2 hvalue⟩
      | _ => cases h

theorem Tree.Sound.drawnLengths (h : node.Sound) {σ : Type} [IndexSource σ] (s : σ) :
    node.DrawnLengths (node.randomValue s).1 :=
  (node.drawable_randomValue s).drawnLengths fun alphabet hmem => (h.alphabets alphabet hmem).1

theorem Spec.sound_of_compile_eq_ok {s : Spec} {c : CompiledSpec} (h : s.compile = .ok c) :
    ∀ node ∈ c.params, node.Sound := by
  obtain ⟨_, _, _, hparams⟩ := (compile_eq_ok (wellShaped_of_compile_eq_ok h)).mp h
  intro node hnode
  obtain ⟨i, hi, rfl⟩ := List.getElem_of_mem hnode
  exact sound_of_compileParam_eq_ok (hparams i hi)

end Nodes

-- What is refused is refused for its text, and what is accepted is sound: what is drawn from it
-- never has a string of any other length.
theorem compile_sound :
    (∀ type exhaustive random,
      (∀ e, compileParam type exhaustive random = .error e → e.InText) ∧
      ∀ node, compileParam type exhaustive random = .ok node → node.Sound ∧
        ∀ (σ : Type) [IndexSource σ] (s : σ), node.DrawnLengths (node.randomValue s).1) ∧
    ∀ s : Spec,
      (∀ e, s.compile = .error e → e.InText) ∧
      ∀ c, s.compile = .ok c → ∀ node ∈ c.params, node.Sound ∧
        ∀ (σ : Type) [IndexSource σ] (s : σ), node.DrawnLengths (node.randomValue s).1 := by
  refine ⟨fun type exhaustive random => ⟨fun e => compileParam_inText, fun node h => ?_⟩,
    fun s => ⟨fun e => Spec.compile_inText, fun c h node hnode => ?_⟩⟩
  · have hsound := sound_of_compileParam_eq_ok h
    exact ⟨hsound, fun σ _ s => hsound.drawnLengths s⟩
  · have hsound := Spec.sound_of_compile_eq_ok h node hnode
    exact ⟨hsound, fun σ _ s => hsound.drawnLengths s⟩

-- The bracket that is not closed is found in the text. The list is refused no domain for it.
theorem compile_sound_strOfAB :
    (∃ e, compileParam "list(int)" "[0]([0" "[0]" = .error e ∧ e.InText) ∧
    (∃ node, compileParam "str(ab)" "[0]" "[0,-0]" = .ok node ∧ node.Sound ∧
      ∀ s : Generator, node.DrawnLengths (node.randomValue s).1) ∧
    (∃ e, Spec.compile ⟨"f", ["list(int)"], ["[0]([0"], ["[0]"], .integer 1⟩ = .error e ∧
      e.InText) ∧
    ∃ c, Spec.compile ⟨"f", ["str(ab)"], ["[0]"], ["[0,-0]"], .integer 1⟩ = .ok c ∧
      ∀ node ∈ c.params, node.Sound := by
  obtain ⟨hparam, hspec⟩ := compile_sound
  have hrefused : compileParam "list(int)" "[0]([0" "[0]" =
      .error (.domain ⟨"[0]([0", .exhaustive, "[", .unmatchedBracket⟩) := rfl
  have hzero : Binary64.read? "0".toList = some ⟨0⟩ := by decide
  have hnegative : Binary64.read? "-0".toList = some ⟨0x8000000000000000⟩ := by decide
  let alphabet : OrderedSet Char := ⟨['a', 'b'], by decide⟩
  let bare (alphabet : OrderedSet Char) : TypeTree := .str alphabet .empty
  have hbare : TypeTree.ofText "str(ab)" = .ok (bare alphabet) :=
    congrArg (Except.ok ∘ bare) alphabet.ofList_toList
  have hsize : Clause.Entries (Clause.sizeEntry .str) _ [0] :=
    ⟨_, .inl (.mk (.last hzero)), [0], by decide, rfl⟩
  have hsizes : Clause.Entries (Clause.sizeEntry .str) _ [0] :=
    ⟨_, .inl (.mk (.cons hzero (.last hnegative))), [0, 0], by decide, by decide⟩
  have haccepted : compileParam "str(ab)" "[0]" "[0,-0]" =
      .ok (.str alphabet ⟨.cons 0 [], .cons 0 []⟩) :=
    compileParam_eq_ok.mpr ⟨_, .str alphabet ⟨some (.cons 0 []), none⟩, _, hbare,
      TypeTree.decorate_of_written (by exact rfl) (.str hsize ⟨.cons 0 [], rfl, rfl⟩),
      TypeTree.decorate_of_written (by exact rfl) (.str hsizes ⟨.cons 0 [], rfl, rfl⟩), rfl⟩
  have hrefusedSpec : Spec.compile ⟨"f", ["list(int)"], ["[0]([0"], ["[0]"], .integer 1⟩ =
      .error (.domain ⟨"[0]([0", .exhaustive, "[", .unmatchedBracket⟩) := rfl
  have hacceptedSpec : Spec.compile ⟨"f", ["str(ab)"], ["[0]"], ["[0,-0]"], .integer 1⟩ =
      .ok ⟨"f", [.str alphabet ⟨.cons 0 [], .cons 0 []⟩], 1⟩ :=
    Spec.compile_of_one_param haccepted
  obtain ⟨hsound, hdrawn⟩ := (hparam _ _ _).2 _ haccepted
  refine ⟨⟨_, hrefused, (hparam _ _ _).1 _ hrefused⟩, ⟨_, haccepted, hsound, hdrawn Generator⟩,
    ⟨_, hrefusedSpec, (hspec _).1 _ hrefusedSpec⟩, _, hacceptedSpec, fun node hnode => ?_⟩
  exact ((hspec _).2 _ hacceptedSpec node hnode).1

end CallSuite
