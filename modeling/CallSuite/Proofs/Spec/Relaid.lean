import CallSuite.Proofs.Spec.Phases
import CallSuite.Proofs.Spec.Printed
import CallSuite.Proofs.Text.Layout

namespace CallSuite

open CallSuite.Text CallSuite.Clause

-- Descriptors of a type, or of domains, that differ in their layout and in nothing else.
def TypeTree.Relaid (text text' : String) : Prop :=
  Token.Relaid TypeTree.delimiters text.toList text'.toList

def Clause.Relaid (text text' : String) : Prop :=
  Token.Relaid Clause.delimiters text.toList text'.toList

-- The same function and parameters, with their descriptors laid out differently.
structure Spec.Relaid (s s' : Spec) : Prop where
  fname : s'.fname = s.fname
  numRandom : s'.numRandom = s.numRandom
  types : List.Forall₂ TypeTree.Relaid s.types s'.types
  exhaustive : List.Forall₂ Clause.Relaid s.exhaustive s'.exhaustive
  random : List.Forall₂ Clause.Relaid s.random s'.random

-- The same fault at the same token, found in other texts.
def CompileError.foundIn (type : String) (domains : Role → String) :
    CompileError → CompileError
  | .type e => .type { e with text := type }
  | .domain e => .domain { e with text := domains e.role }
  | e => e

-- The text of a parameter's domain for a role.
def Spec.domainAt (s : Spec) (i : Nat) : Role → String
  | .exhaustive => s.exhaustive[i]!
  | .random => s.random[i]!

section Tokens

theorem TypeTree.delimits : Token.Delimits TypeTree.delimiters where
  not_blank := by simp [delimiters, isBlank]
  not_close := by decide

theorem Clause.delimits : Token.Delimits Clause.delimiters where
  not_blank := by simp [delimiters, isBlank]
  not_close := by decide

theorem TypeTree.layoutFree_tokens : Token.LayoutFree TypeTree.delimiters TypeTree.tokens :=
  Token.layoutFree_split TypeTree.delimits

theorem Clause.layoutFree_tokens : Token.LayoutFree Clause.delimiters Clause.tokens :=
  Token.layoutFree_split Clause.delimits

end Tokens

section Compiled

variable {type type' text text' : String} {domains domains' : Role → String}

-- Of a type descriptor, the tree that it denotes and the place of a fault hang on its tokens only.
theorem TypeTree.ofText_of_relaid (h : TypeTree.Relaid text text') :
    TypeTree.ofText text' = (TypeTree.ofText text).mapError fun e => { e with text := text' } := by
  unfold ofText
  rw [(layoutFree_tokens.relaid text text').mp h]
  cases ofTokens (tokens text') <;> rfl

-- So do the domains that a domain descriptor gives to a tree.
theorem TypeTree.exists_decorate_eq (tree : TypeTree) (role : Role) (ts : List Token) :
    ∃ tree' outcome, ∀ text, Clause.tokens text = ts → tree.decorate role text =
      (tree', Except.mapError (fun (token, fault) => ⟨text, role, token, fault⟩) outcome) := by
  cases hitems : Clause.itemsOf ts with
  | error e =>
      exact ⟨tree, .error e, fun text htext => decorate_of_scan_error (htext ▸ hitems) tree role⟩
  | ok items =>
      exact ⟨_, _, fun text htext => decorate_of_scan (htext ▸ hitems) tree role⟩

theorem TypeTree.decorate_of_relaid (h : Clause.Relaid text text') (tree : TypeTree) (role : Role) :
    tree.decorate role text' = ((tree.decorate role text).1,
      (tree.decorate role text).2.mapError fun e => { e with text := text' }) := by
  obtain ⟨tree', outcome, heq⟩ := tree.exists_decorate_eq role (Clause.tokens text')
  rw [heq text ((Clause.layoutFree_tokens.relaid text text').mp h), heq text' rfl]
  cases outcome <;> rfl

theorem TypeTree.decorated_of_relaid (type : String) {role : Role}
    (h : Clause.Relaid (domains role) (domains' role)) (tree : TypeTree) :
    tree.decorated role (domains' role) =
      (tree.decorated role (domains role)).mapError (CompileError.foundIn type domains') := by
  obtain ⟨tree', outcome, heq⟩ := tree.exists_decorate_eq role (Clause.tokens (domains' role))
  unfold decorated
  rw [heq _ ((Clause.layoutFree_tokens.relaid _ _).mp h), heq _ rfl]
  cases outcome <;> rfl

theorem compileParam_of_relaid (htype : TypeTree.Relaid type type')
    (hdomains : ∀ role, Clause.Relaid (domains role) (domains' role)) :
    compileParam type' (domains' .exhaustive) (domains' .random) =
      (compileParam type (domains .exhaustive) (domains .random)).mapError
        (CompileError.foundIn type' domains') := by
  have hbare : (TypeTree.ofText type').mapError CompileError.type =
      ((TypeTree.ofText type).mapError CompileError.type).mapError
        (CompileError.foundIn type' domains') := by
    rw [TypeTree.ofText_of_relaid htype]
    cases TypeTree.ofText type <;> rfl
  have hseal (tree : TypeTree) : tree.seal.mapError CompileError.seal =
      (tree.seal.mapError CompileError.seal).mapError (CompileError.foundIn type' domains') := by
    cases tree.seal <;> rfl
  simp only [compileParam, mapError_bind, ← hbare, ← hseal,
    ← TypeTree.decorated_of_relaid type' (hdomains _)]

end Compiled

section Specs

variable {s s' : Spec}

theorem Spec.Relaid.arity_eq (h : s.Relaid s') : s'.arity = s.arity := h.types.length_eq.symm

theorem Spec.Relaid.wellShaped (h : s.Relaid s') : s'.WellShaped ↔ s.WellShaped := by
  have hexhaustive := h.exhaustive.length_eq
  have hrandom := h.random.length_eq
  constructor
  · intro h'
    exact ⟨h.numRandom ▸ h'.numRandom, hexhaustive.trans (h'.exhaustive.trans h.arity_eq),
      hrandom.trans (h'.random.trans h.arity_eq)⟩
  · intro h'
    exact ⟨h.numRandom.symm ▸ h'.numRandom,
      hexhaustive.symm.trans (h'.exhaustive.trans h.arity_eq.symm),
      hrandom.symm.trans (h'.random.trans h.arity_eq.symm)⟩

theorem forall₂_getElem! {R : String → String → Prop} {xs ys : List String} {i : Nat}
    (h : List.Forall₂ R xs ys) (hi : i < xs.length) : R xs[i]! ys[i]! := by
  have hi' : i < ys.length := h.length_eq ▸ hi
  simpa [hi, hi'] using h.get hi hi'

theorem Spec.Relaid.paramAt_eq_ok_iff {i : Nat} {node : Node} (h : s.Relaid s')
    (hshape : s.WellShaped) (hi : i < s.arity) :
    s'.paramAt i = .ok node ↔ s.paramAt i = .ok node := by
  have hdomains (role : Role) : Clause.Relaid (s.domainAt i role) (s'.domainAt i role) := by
    cases role with
    | exhaustive => exact forall₂_getElem! h.exhaustive (hshape.exhaustive.symm ▸ hi)
    | random => exact forall₂_getElem! h.random (hshape.random.symm ▸ hi)
  have hparam := compileParam_of_relaid (forall₂_getElem! h.types hi) hdomains
  change s'.paramAt i = (s.paramAt i).mapError _ at hparam
  rw [hparam, mapError_eq_ok]

theorem Spec.Relaid.compile_eq_ok_iff {c : CompiledSpec} (h : s.Relaid s') :
    s'.compile = .ok c ↔ s.compile = .ok c := by
  by_cases hshape : s.WellShaped
  · rw [compile_eq_ok hshape, compile_eq_ok (h.wellShaped.mpr hshape), h.fname, h.numRandom,
      h.arity_eq]
    refine and_congr_right fun _ => and_congr_right fun _ => and_congr_right fun hlength => ?_
    exact forall₂_congr fun i hi => h.paramAt_eq_ok_iff hshape (hlength ▸ hi)
  · rw [compile_of_not_wellShaped hshape, compile_of_not_wellShaped (mt h.wellShaped.mp hshape)]
    simp

end Specs

-- A descriptor is read to the same tokens however it is laid out, and so it stands for the same
-- tree or the same domains. Where it is refused, it is so for the same fault at the same token.
theorem layoutFree_and_compile_of_relaid :
    Token.LayoutFree TypeTree.delimiters TypeTree.tokens ∧
    Token.LayoutFree Clause.delimiters Clause.tokens ∧
    (∀ text text', TypeTree.Relaid text text' →
      TypeTree.ofText text' = (TypeTree.ofText text).mapError fun e => { e with text := text' }) ∧
    (∀ (tree : TypeTree) role text text', Clause.Relaid text text' →
      tree.decorate role text' = ((tree.decorate role text).1,
        (tree.decorate role text).2.mapError fun e => { e with text := text' })) ∧
    (∀ type type' (domains domains' : Role → String), TypeTree.Relaid type type' →
      (∀ role, Clause.Relaid (domains role) (domains' role)) →
      compileParam type' (domains' .exhaustive) (domains' .random) =
        (compileParam type (domains .exhaustive) (domains .random)).mapError
          (CompileError.foundIn type' domains')) ∧
    ∀ s s' : Spec, s.Relaid s' → ∀ c, s'.compile = .ok c ↔ s.compile = .ok c := by
  refine ⟨TypeTree.layoutFree_tokens, Clause.layoutFree_tokens, fun text text' h => ?_,
    fun tree role text text' h => ?_, fun type type' domains domains' htype hdomains => ?_,
    fun s s' h c => ?_⟩
  · exact TypeTree.ofText_of_relaid h
  · exact TypeTree.decorate_of_relaid h tree role
  · exact compileParam_of_relaid htype hdomains
  · exact h.compile_eq_ok_iff

-- One parameter, first with nothing that could be left out, then with parentheses that close
-- nothing and with white space at the ends and beside the delimiters.
def tightSpec : Spec :=
  ⟨"f", ["dict(str(xy):int"], ["[0]([0]:[0,-0]"], ["[0]([0]:[0]"], .integer 1⟩

def looseSpec : Spec :=
  ⟨"f", [" dict )(str( xy)) :int)"], ["[ 0 )] ()[0] :) [0,) -0] )"], ["[0] ( [0 ]):[) 0])"],
    .integer 1⟩

def dictOfZeros : Node :=
  .dict ⟨.cons 0 [], .cons 0 []⟩ (.str ⟨['x', 'y'], by decide⟩ ⟨.cons 0 [], .cons 0 []⟩)
    (.int ⟨.cons 0 [], .cons 0 []⟩)

theorem paramAt_tightSpec : tightSpec.paramAt 0 = .ok dictOfZeros := by
  have hzero : Binary64.read? "0".toList = some ⟨0⟩ := by decide
  have hnegative : Binary64.read? "-0".toList = some ⟨0x8000000000000000⟩ := by decide
  have hsize (kind : Kind) : Entries (sizeEntry kind) _ [0] :=
    ⟨_, .inl (.mk (.last hzero)), [0], rfl, rfl⟩
  have hint : Entries intEntry _ [0] := ⟨_, .inl (.mk (.last hzero)), [0], rfl, rfl⟩
  have hints : Entries intEntry _ [0] :=
    ⟨_, .inl (.mk (.cons hzero (.last hnegative))), [0, 0], by decide, by decide⟩
  let alphabet : OrderedSet Char := ⟨['x', 'y'], by decide⟩
  let bare (alphabet : OrderedSet Char) : TypeTree :=
    .dict .empty (.str alphabet .empty) (.int .empty)
  let half : TypeTree := .dict ⟨some (.cons 0 []), none⟩
    (.str alphabet ⟨some (.cons 0 []), none⟩) (.int ⟨some (.cons 0 []), none⟩)
  have hbare : TypeTree.ofText "dict(str(xy):int" = .ok (bare alphabet) :=
    congrArg (Except.ok ∘ bare) alphabet.ofList_toList
  have hfirst : Written .exhaustive (bare alphabet) _ half :=
    .dict (hsize .dict) ⟨.cons 0 [], rfl, rfl⟩ (.str (hsize .str) ⟨.cons 0 [], rfl, rfl⟩)
      (.int hints ⟨.cons 0 [], rfl, rfl⟩)
  have hsecond : Written .random half _ (dictOfZeros.map Slots.ofDomains) :=
    .dict (hsize .dict) ⟨.cons 0 [], rfl, rfl⟩ (.str (hsize .str) ⟨.cons 0 [], rfl, rfl⟩)
      (.int hint ⟨.cons 0 [], rfl, rfl⟩)
  exact compileParam_eq_ok.mpr ⟨_, half, _, hbare,
    TypeTree.decorate_of_written ⟨rfl, rfl, rfl⟩ hfirst,
    TypeTree.decorate_of_written ⟨rfl, rfl, rfl⟩ hsecond, rfl⟩

-- The word that is no type is found in both layouts.
theorem compile_looseSpec :
    tightSpec.Relaid looseSpec ∧
    tightSpec.paramAt 0 = .ok dictOfZeros ∧ looseSpec.paramAt 0 = .ok dictOfZeros ∧
    tightSpec.compile = .ok ⟨"f", [dictOfZeros], 1⟩ ∧
    looseSpec.compile = .ok ⟨"f", [dictOfZeros], 1⟩ ∧
    TypeTree.Relaid "list(in" ")list\t( in)" ∧
    TypeTree.ofText "list(in" = .error ⟨"list(in", "in", .expectedType⟩ ∧
    TypeTree.ofText ")list\t( in)" = .error ⟨")list\t( in)", "in", .expectedType⟩ := by
  obtain ⟨htypes, hclauses, hofText, _, hparam, hspec⟩ := layoutFree_and_compile_of_relaid
  have htype : TypeTree.Relaid "dict(str(xy):int" " dict )(str( xy)) :int)" :=
    (htypes.relaid _ _).mpr (by decide +kernel)
  have hdomains (role : Role) : Clause.Relaid (tightSpec.domainAt 0 role)
      (looseSpec.domainAt 0 role) := by
    refine (hclauses.relaid _ _).mpr ?_
    cases role <;> decide +kernel
  have hrelaid : tightSpec.Relaid looseSpec :=
    ⟨rfl, rfl, .cons htype .nil, .cons (hdomains .exhaustive) .nil, .cons (hdomains .random) .nil⟩
  have hlist : TypeTree.Relaid "list(in" ")list\t( in)" :=
    (htypes.relaid _ _).mpr (by decide +kernel)
  have htight := paramAt_tightSpec
  have hcompiled : tightSpec.compile = .ok ⟨"f", [dictOfZeros], 1⟩ :=
    Spec.compile_of_one_param htight
  have hrefused : TypeTree.ofText "list(in" = .error ⟨"list(in", "in", .expectedType⟩ := rfl
  refine ⟨hrelaid, htight, ?_, hcompiled, (hspec _ _ hrelaid _).mpr hcompiled, hlist, hrefused, ?_⟩
  · have hloose := hparam _ _ _ _ htype hdomains
    change looseSpec.paramAt 0 = (tightSpec.paramAt 0).mapError _ at hloose
    rw [hloose, htight]
    rfl
  · rw [hofText _ _ hlist, hrefused]
    rfl

end CallSuite
