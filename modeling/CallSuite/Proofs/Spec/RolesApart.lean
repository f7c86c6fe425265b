import CallSuite.Campaign
import CallSuite.Proofs.Random.Columns
import CallSuite.Proofs.Spec.Params
import CallSuite.Proofs.Spec.Phases

namespace CallSuite

-- A node that has the domains of one role for both of them.
def Tree.mirror (role : Role) (node : Node) : Node :=
  node.map fun d => ⟨d.get role, d.get role⟩

theorem Tree.mirror_eq_of_domains_eq {role : Role} {node node' : Node}
    (h : node.map (fun d => (some (d.get role) : Slot _)) =
      node'.map fun d => (some (d.get role) : Slot _)) : node.mirror role = node'.mirror role := by
  have hsome (node : Node) : node.map (fun d => (some (d.get role) : Slot _)) =
      (node.map fun d => d.get role).map fun d => (some d : Slot _) := by
    rw [map_map]
  have hpart : node.map (fun d => d.get role) = node'.map fun d => d.get role := by
    rw [hsome, hsome] at h
    exact map_injective (f := fun d => (some d : Slot _)) Option.some.inj h
  have hmirror (node : Node) : node.mirror role =
      (node.map fun d => d.get role).map fun d => (⟨d, d⟩ : Domains _) := by
    rw [map_map, mirror]
  rw [hmirror, hmirror, hpart]

section Random

open CaseStream

variable {σ : Type} [IndexSource σ]

theorem Tree.randomValue_mirror (node : Node) (s : σ) :
    (node.mirror .random).randomValue s = node.randomValue s := by
  induction node generalizing s with
  | int d | bool d | float d | str alphabet d => rfl
  | collection c d item ih =>
      have hitem : (item.mirror .random).randomValue = item.randomValue (σ := σ) := funext ih
      simp only [mirror, map, randomValue] at hitem ⊢
      rw [hitem]
      rfl
  | dict d key value ihk ihv =>
      have hkey : (key.mirror .random).randomValue = key.randomValue (σ := σ) := funext ihk
      have hvalue : (value.mirror .random).randomValue = value.randomValue (σ := σ) := funext ihv
      simp only [mirror, map, randomValue] at hkey hvalue ⊢
      rw [hkey, hvalue]
      rfl

theorem Tree.nthRandomValue_mirror (node : Node) (k : Nat) (s : σ) :
    (node.mirror .random).nthRandomValue k s = node.nthRandomValue k s := by
  induction k generalizing s with
  | zero => rw [nthRandomValue, randomValue_mirror, nthRandomValue]
  | succ k ih => rw [nthRandomValue, ih, randomValue_mirror, nthRandomValue]

theorem take_ofSources_mirror (params : List Node) (source : Nat → σ) (n : Nat) :
    ((ofSources (params.map (Tree.mirror .random)) source).take n).1 =
      ((ofSources params source).take n).1 := by
  have hcase (k : Nat) : (ofSources (params.map (Tree.mirror .random)) source).nthCase k =
      (ofSources params source).nthCase k := by
    refine congrArg TestCase.mk (List.ext_getElem? fun i => ?_)
    change (nthCase _ k).args[i]? = (nthCase _ k).args[i]?
    simp only [args_nthCase_ofSources, List.getElem?_map, Option.map_map, Function.comp_def,
      Tree.nthRandomValue_mirror]
  rw [take_fst, take_fst, funext hcase]

theorem randomSuite_mirror (params : List Node) (n : Nat) (seed : UInt64) :
    randomSuite (params.map (Tree.mirror .random)) n seed = randomSuite params n seed :=
  take_ofSources_mirror params _ n

end Random

theorem Tree.exhaustiveValues_mirror (node : Node) :
    (node.mirror .exhaustive).exhaustiveValues = node.exhaustiveValues := by
  induction node with
  | int d | bool d | float d | str alphabet d => rfl
  | collection c d item ih =>
      simp only [mirror, map, exhaustiveValues] at ih ⊢
      rw [ih]
      rfl
  | dict d key value ihk ihv =>
      simp only [mirror, map, exhaustiveValues] at ihk ihv ⊢
      rw [ihk, ihv]
      rfl

section Compiled

variable {type exhaustive exhaustive' random random' : String} {node node' : Node}

theorem mirror_random_eq (h : compileParam type exhaustive random = .ok node)
    (h' : compileParam type exhaustive' random = .ok node') :
    node.mirror .random = node'.mirror .random := by
  obtain ⟨bare, hbare, _, hrandom⟩ := domains_of_compileParam_eq_ok h
  obtain ⟨bare', hbare', _, hrandom'⟩ := domains_of_compileParam_eq_ok h'
  obtain rfl : bare = bare' := Except.ok.inj (hbare.symm.trans hbare')
  exact Tree.mirror_eq_of_domains_eq (hrandom.symm.trans hrandom')

theorem mirror_exhaustive_eq (h : compileParam type exhaustive random = .ok node)
    (h' : compileParam type exhaustive random' = .ok node') :
    node.mirror .exhaustive = node'.mirror .exhaustive := by
  obtain ⟨bare, hbare, hexhaustive, _⟩ := domains_of_compileParam_eq_ok h
  obtain ⟨bare', hbare', hexhaustive', _⟩ := domains_of_compileParam_eq_ok h'
  obtain rfl : bare = bare' := Except.ok.inj (hbare.symm.trans hbare')
  exact Tree.mirror_eq_of_domains_eq (hexhaustive.symm.trans hexhaustive')

theorem Spec.mirror_random_params_eq {s : Spec} {texts : List String} {c c' : CompiledSpec}
    (h : s.compile = .ok c) (h' : compile { s with exhaustive := texts } = .ok c') :
    c.params.map (Tree.mirror .random) = c'.params.map (Tree.mirror .random) ∧
      c.numRandom = c'.numRandom := by
  obtain ⟨_, hnum, hlength, hparams⟩ := (compile_eq_ok (wellShaped_of_compile_eq_ok h)).mp h
  obtain ⟨_, hnum', hlength', hparams'⟩ := (compile_eq_ok (wellShaped_of_compile_eq_ok h')).mp h'
  refine ⟨List.ext_getElem (by simp [hlength, hlength', arity]) fun i hi hi' => ?_, ?_⟩
  · simp only [List.getElem_map]
    exact mirror_random_eq (hparams i (by simpa using hi)) (hparams' i (by simpa using hi'))
  · exact Int.ofNat.inj (JsonNumber.integer.inj (hnum.symm.trans hnum'))

end Compiled

-- Nothing that is drawn depends on an exhaustive text, and nothing that is enumerated depends on a
-- random one.
theorem compile_roles_apart :
    (∀ type random exhaustive exhaustive' node node',
      compileParam type exhaustive random = .ok node →
      compileParam type exhaustive' random = .ok node' →
      ∀ (σ : Type) [IndexSource σ] (s : σ), node.randomValue s = node'.randomValue s ∧
        ∀ n, times n node.randomValue s = times n node'.randomValue s) ∧
    (∀ (s : Spec) (texts : List String) c c', s.compile = .ok c →
      Spec.compile { s with exhaustive := texts } = .ok c' → ∀ seed,
        (Campaign.mk c).randomSuite seed = (Campaign.mk c').randomSuite seed ∧
        ∀ n, randomSuite c.params n seed = randomSuite c'.params n seed) ∧
    ∀ type exhaustive random random' node node',
      compileParam type exhaustive random = .ok node →
      compileParam type exhaustive random' = .ok node' →
      node.exhaustiveValues = node'.exhaustiveValues := by
  refine ⟨fun type random exhaustive exhaustive' node node' h h' σ _ s => ?_,
    fun s texts c c' h h' seed => ?_, fun type exhaustive random random' node node' h h' => ?_⟩
  · have hdraw : node.randomValue = node'.randomValue (σ := σ) := by
      funext s
      rw [← node.randomValue_mirror, mirror_random_eq h h', node'.randomValue_mirror]
    rw [hdraw]
    exact ⟨rfl, fun _ => rfl⟩
  · obtain ⟨hparams, hnum⟩ := Spec.mirror_random_params_eq h h'
    have hsuite (n : Nat) : randomSuite c.params n seed = randomSuite c'.params n seed := by
      rw [← randomSuite_mirror, hparams, randomSuite_mirror]
    refine ⟨?_, hsuite⟩
    rw [Campaign.randomSuite, Campaign.randomSuite, Campaign.numRandom, Campaign.numRandom, hnum]
    exact hsuite c'.numRandom
  · rw [← node.exhaustiveValues_mirror, mirror_exhaustive_eq h h', node'.exhaustiveValues_mirror]

def bothZeros : Domain Binary64 := .cons ⟨0⟩ [⟨0x8000000000000000⟩]

-- The exhaustive domain has one entry or two, and then the random one has.
theorem roles_apart_zeros :
    (∃ node node', compileParam "float" "[0]" "[0,-0]" = .ok node ∧
      compileParam "float" "[0,-0]" "[0,-0]" = .ok node' ∧
      node.exhaustiveValues.length = 1 ∧ node'.exhaustiveValues.length = 2 ∧
      ∀ s : Generator, node.randomValue s = node'.randomValue s) ∧
    (∃ c c', Spec.compile ⟨"f", ["float"], ["[0]"], ["[0,-0]"], .integer 2⟩ = .ok c ∧
      Spec.compile ⟨"f", ["float"], ["[0,-0]"], ["[0,-0]"], .integer 2⟩ = .ok c' ∧
      ∀ seed, (Campaign.mk c).randomSuite seed = (Campaign.mk c').randomSuite seed) ∧
    ∃ node node', compileParam "float" "[0,-0]" "[0]" = .ok node ∧
      compileParam "float" "[0,-0]" "[0,-0]" = .ok node' ∧
      node.exhaustiveValues = node'.exhaustiveValues := by
  have hzero : Binary64.read? "0".toList = some ⟨0⟩ := by decide
  have hnegative : Binary64.read? "-0".toList = some ⟨0x8000000000000000⟩ := by decide
  have hlist : Clause.Denotes (Clause.tokens "[0]") (Domain.cons ⟨0⟩ []).toList :=
    .list (.mk (.last hzero))
  have hlists : Clause.Denotes (Clause.tokens "[0,-0]") bothZeros.toList :=
    .list (.mk (.cons hzero (.last hnegative)))
  have hone := compileParam_float hlist hlists
  have hone' := compileParam_float hlists hlist
  have htwo := compileParam_float hlists hlists
  obtain ⟨hdraw, hsuite, hvalues⟩ := compile_roles_apart
  refine ⟨⟨_, _, hone, htwo, ?_, ?_, fun s => ?_⟩, ⟨_, _, Spec.compile_of_one_param hone,
    Spec.compile_of_one_param htwo, fun seed => ?_⟩, _, _, hone', htwo, ?_⟩
  · simp only [Tree.exhaustiveValues, distinct_eq]
    rfl
  · simp only [Tree.exhaustiveValues, distinct_eq]
    rfl
  · exact (hdraw _ _ _ _ _ _ hone htwo Generator s).1
  · exact (hsuite _ _ _ _ (Spec.compile_of_one_param hone) (Spec.compile_of_one_param htwo) seed).1
  · exact hvalues _ _ _ _ _ _ hone' htwo

end CallSuite
