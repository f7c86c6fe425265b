import CallSuite.Proofs.Clause.Separation

namespace CallSuite

theorem JsonNumber.toNat?_eq_some {x : JsonNumber} {n : Nat} :
    x.toNat? = some n ↔ x = .integer n := by
  cases x with
  | integer i =>
      simp only [toNat?, Option.ite_none_right_eq_some, Option.some.injEq, integer.injEq]
      omega
  | float x => simp [toNat?]

namespace Spec

-- What the phases make of the parameter at a place, each from what the one before it left.
def bareAt (s : Spec) (i : Nat) : Except CompileError TypeTree :=
  (TypeTree.ofText s.types[i]!).mapError .type

def halfAt (s : Spec) (i : Nat) : Except CompileError TypeTree :=
  s.bareAt i >>= (TypeTree.decorated · .exhaustive s.exhaustive[i]!)

def fullAt (s : Spec) (i : Nat) : Except CompileError TypeTree :=
  s.halfAt i >>= (TypeTree.decorated · .random s.random[i]!)

-- The parameter at a place, compiled on its own.
def paramAt (s : Spec) (i : Nat) : Except CompileError Node :=
  compileParam s.types[i]! s.exhaustive[i]! s.random[i]!

-- Every parameter has its three texts, and there is a number of cases to draw.
structure WellShaped (s : Spec) : Prop where
  numRandom : ∃ n : Nat, s.numRandom = .integer n
  exhaustive : s.exhaustive.length = s.arity
  random : s.random.length = s.arity

-- The violations that there are and no others, in this order.
structure Reported (s : Spec) (violations : List Violation) : Prop where
  ordered : violations.Sublist [.invalidNumRandom s.numRandom,
    .lengthMismatch "exhaustive domain" s.arity s.exhaustive.length,
    .lengthMismatch "random domain" s.arity s.random.length]
  numRandom : .invalidNumRandom s.numRandom ∈ violations ↔ ¬∃ n : Nat, s.numRandom = .integer n
  exhaustive : .lengthMismatch "exhaustive domain" s.arity s.exhaustive.length ∈ violations ↔
    s.exhaustive.length ≠ s.arity
  random : .lengthMismatch "random domain" s.arity s.random.length ∈ violations ↔
    s.random.length ≠ s.arity

variable {s : Spec} {e : CompileError} {i : Nat}

section Shape

theorem isSome_toNat?_numRandom :
    s.numRandom.toNat?.isSome ↔ ∃ n : Nat, s.numRandom = .integer n := by
  simp only [Option.isSome_iff_exists, JsonNumber.toNat?_eq_some]

theorem reported_violations (s : Spec) : s.Reported s.violations where
  ordered := by
    have hnum : s.numRandomViolations.Sublist [.invalidNumRandom s.numRandom] := by
      unfold numRandomViolations
      split <;> simp
    have hlength (field : String) (texts : List String) : (s.lengthViolations field texts).Sublist
        [.lengthMismatch field s.arity texts.length] := by
      unfold lengthViolations
      split <;> simp [arity]
    exact (hnum.append (hlength _ _)).append (hlength _ _)
  numRandom := by
    simp [violations, numRandomViolations, lengthViolations, ← isSome_toNat?_numRandom]
  exhaustive := by
    simp [violations, numRandomViolations, lengthViolations, arity]
  random := by
    simp [violations, numRandomViolations, lengthViolations, arity]

theorem violations_eq_nil : s.violations = [] ↔ s.WellShaped := by
  have hempty : s.violations = [] ↔ s.numRandom.toNat?.isSome ∧
      s.exhaustive.length = s.arity ∧ s.random.length = s.arity := by
    simp [violations, numRandomViolations, lengthViolations, arity, Option.isSome_iff_ne_none]
  rw [hempty, isSome_toNat?_numRandom]
  exact ⟨fun ⟨hnum, hexhaustive, hrandom⟩ => ⟨hnum, hexhaustive, hrandom⟩,
    fun h => ⟨h.numRandom, h.exhaustive, h.random⟩⟩

theorem compile_of_not_wellShaped (h : ¬s.WellShaped) :
    s.compile = .error (.shape s.violations) := by
  unfold compile
  split
  next hnil => exact absurd (violations_eq_nil.mp hnil) h
  next => rfl

theorem wellShaped_of_compile_eq_ok {c : CompiledSpec} (h : s.compile = .ok c) :
    s.WellShaped := by
  by_cases hshape : s.WellShaped
  · exact hshape
  · rw [compile_of_not_wellShaped hshape] at h
    cases h

theorem compile_of_wellShaped {n : Nat} (h : s.WellShaped) (hn : s.numRandom = .integer n) :
    s.compile = s.compileTrees >>= fun params => .ok ⟨s.fname, params, n⟩ := by
  unfold compile
  rw [violations_eq_nil.mpr h, JsonNumber.toNat?_eq_some.mpr hn]
  rfl

end Shape

section Places

variable {n : Nat} {xs : List String}

-- A list by its places, so that lists of one length can be gone through together.
theorem map_range_getElem! (h : xs.length = n) : (List.range n).map (xs[·]!) = xs := by
  subst h
  refine List.ext_getElem (by simp) fun i hi hi' => ?_
  simp [hi']

theorem paramAt_eq (s : Spec) (i : Nat) :
    s.paramAt i = s.fullAt i >>= fun tree => tree.seal.mapError .seal := by
  simp only [paramAt, compileParam, fullAt, halfAt, bareAt, bind_assoc]

theorem decorateAll_eq {role : Role} {outcome : Nat → Except CompileError TypeTree}
    {trees : List TypeTree} (htrees : (List.range n).mapM outcome = .ok trees)
    (h : xs.length = n) : decorateAll role trees xs =
      (List.range n).mapM fun i => outcome i >>= (TypeTree.decorated · role xs[i]!) := by
  rw [decorateAll, ← mapM_zip_of_mapM_eq_ok htrees (xs[·]!) fun p => p.1.decorated role p.2,
    map_range_getElem! h]

-- Phase by phase, each phase parameter by parameter.
theorem compileTrees_eq (h : s.WellShaped) : s.compileTrees =
    (List.range s.arity).mapM s.bareAt >>= fun _ => (List.range s.arity).mapM s.halfAt >>= fun _ =>
      (List.range s.arity).mapM s.fullAt >>= fun _ => (List.range s.arity).mapM s.paramAt := by
  have hplaces : (List.range s.arity).map (s.types[·]!) = s.types := map_range_getElem! rfl
  have htypes : (s.types.mapM fun text => (TypeTree.ofText text).mapError CompileError.type) =
      (List.range s.arity).mapM s.bareAt := by
    rw [← hplaces, List.mapM_map]
    rfl
  rw [compileTrees, htypes]
  refine bind_congr_of_eq_ok fun bare hbare => ?_
  rw [decorateAll_eq hbare h.exhaustive]
  refine bind_congr_of_eq_ok fun half hhalf => ?_
  change (List.range s.arity).mapM s.halfAt = .ok half at hhalf
  rw [decorateAll_eq hhalf h.random]
  refine bind_congr_of_eq_ok fun full hfull => ?_
  change (List.range s.arity).mapM s.fullAt = .ok full at hfull
  rw [mapM_of_mapM_eq_ok hfull, funext (paramAt_eq s)]

end Places

section Phases

variable {n : Nat}

theorem exists_paramAt_eq_ok {full : TypeTree} (h : s.fullAt i = .ok full) :
    ∃ node, s.paramAt i = .ok node := by
  obtain ⟨half, hhalf, hfull⟩ := bind_eq_ok.mp h
  obtain ⟨bare, _, hhalf⟩ := bind_eq_ok.mp hhalf
  obtain ⟨node, hnode⟩ := TypeTree.exists_seal_of_decorated hhalf hfull
  refine ⟨node, ?_⟩
  rw [paramAt_eq, h]
  exact congrArg (Except.mapError CompileError.seal) hnode

theorem allOk_bareAt (h : AllOk n s.halfAt) : AllOk n s.bareAt := AllOk.of_bind h

theorem allOk_halfAt (h : AllOk n s.fullAt) : AllOk n s.halfAt := AllOk.of_bind h

theorem allOk_fullAt_iff : AllOk n s.fullAt ↔ AllOk n s.paramAt := by
  constructor
  · intro h i hi
    obtain ⟨full, hfull⟩ := h i hi
    exact exists_paramAt_eq_ok hfull
  · intro h
    rw [funext (paramAt_eq s)] at h
    exact h.of_bind

theorem compileTrees_eq_ok (h : s.WellShaped) {params : List Node} :
    s.compileTrees = .ok params ↔
      params.length = s.arity ∧ ∀ i (h : i < params.length), s.paramAt i = .ok params[i] := by
  rw [compileTrees_eq h, mapM_range_bind_eq_ok, mapM_range_bind_eq_ok, mapM_range_bind_eq_ok,
    ← mapM_range_eq_ok]
  refine ⟨fun ⟨_, _, _, hparams⟩ => hparams, fun hparams => ?_⟩
  have hfull := allOk_fullAt_iff.mpr (exists_mapM_range_eq_ok.mp ⟨params, hparams⟩)
  exact ⟨allOk_bareAt (allOk_halfAt hfull), allOk_halfAt hfull, hfull, hparams⟩

-- Sealing is not among the phases that can fail.
theorem compileTrees_eq_error (h : s.WellShaped) : s.compileTrees = .error e ↔
    FirstError s.arity s.bareAt e ∨ (AllOk s.arity s.bareAt ∧ FirstError s.arity s.halfAt e) ∨
      (AllOk s.arity s.halfAt ∧ FirstError s.arity s.fullAt e) := by
  have hsealed : ¬(AllOk s.arity s.fullAt ∧ FirstError s.arity s.paramAt e) := by
    rintro ⟨hfull, i, hi, he, _⟩
    obtain ⟨node, hnode⟩ := allOk_fullAt_iff.mp hfull i hi
    rw [hnode] at he
    cases he
  rw [compileTrees_eq h, mapM_range_bind_eq_error, mapM_range_bind_eq_error,
    mapM_range_bind_eq_error, mapM_range_eq_error, or_iff_left hsealed, and_or_left, ← and_assoc,
    and_iff_right_of_imp allOk_bareAt]

theorem compile_eq_ok (h : s.WellShaped) {c : CompiledSpec} : s.compile = .ok c ↔
    c.fname = s.fname ∧ s.numRandom = .integer c.numRandom ∧ c.params.length = s.arity ∧
      ∀ i (h : i < c.params.length), s.paramAt i = .ok c.params[i] := by
  obtain ⟨n, hn⟩ := h.numRandom
  rw [compile_of_wellShaped h hn, bind_eq_ok]
  constructor
  · rintro ⟨params, hparams, hc⟩
    cases hc
    exact ⟨rfl, hn, (compileTrees_eq_ok h).mp hparams⟩
  · rintro ⟨hfname, hnum, hparams⟩
    refine ⟨c.params, (compileTrees_eq_ok h).mpr hparams, ?_⟩
    obtain rfl : n = c.numRandom := by
      have hsame := JsonNumber.toNat?_eq_some.mpr hn
      rwa [JsonNumber.toNat?_eq_some.mpr hnum, Option.some.injEq, eq_comm] at hsame
    rw [← hfname]

theorem compile_eq_error (h : s.WellShaped) :
    s.compile = .error e ↔ s.compileTrees = .error e := by
  obtain ⟨n, hn⟩ := h.numRandom
  rw [compile_of_wellShaped h hn, bind_eq_error]
  simp

theorem exists_compile_eq_ok (h : s.WellShaped) :
    (∃ c, s.compile = .ok c) ↔ AllOk s.arity s.paramAt := by
  obtain ⟨n, hn⟩ := h.numRandom
  constructor
  · rintro ⟨c, hc⟩ i hi
    obtain ⟨_, _, hlength, hparams⟩ := (compile_eq_ok h).mp hc
    exact ⟨_, hparams i (hlength ▸ hi)⟩
  · intro hall
    obtain ⟨params, hparams⟩ := exists_mapM_range_eq_ok.mpr hall
    refine ⟨⟨s.fname, params, n⟩, (compile_eq_ok h).mpr ⟨rfl, hn, ?_⟩⟩
    exact mapM_range_eq_ok.mp hparams

theorem compile_of_one_param {fname type exhaustive random : String} {n : Nat} {node : Node}
    (h : compileParam type exhaustive random = .ok node) :
    compile ⟨fname, [type], [exhaustive], [random], .integer n⟩ = .ok ⟨fname, [node], n⟩ := by
  refine (compile_eq_ok ⟨⟨n, rfl⟩, rfl, rfl⟩).mpr ⟨rfl, rfl, rfl, fun i hi => ?_⟩
  obtain rfl : i = 0 := Nat.lt_one_iff.mp hi
  exact h

-- A spec is refused for its shape before any of its texts is read. One that is not is compiled as
-- its parameters are one by one, and of several errors the phases decide which one is reported.
theorem compile_by_parameters (s : Spec) :
    (¬s.WellShaped → ∃ violations,
      s.compile = .error (.shape violations) ∧ s.Reported violations) ∧
    (s.WellShaped →
      ((∃ c, s.compile = .ok c) ↔ AllOk s.arity s.paramAt) ∧
      (∀ c, s.compile = .ok c ↔ c.fname = s.fname ∧ s.numRandom = .integer c.numRandom ∧
        c.params.length = s.arity ∧ ∀ i (h : i < c.params.length), s.paramAt i = .ok c.params[i]) ∧
      ∀ e, s.compile = .error e ↔
        FirstError s.arity s.bareAt e ∨
        (AllOk s.arity s.bareAt ∧ FirstError s.arity s.halfAt e) ∨
        (AllOk s.arity s.halfAt ∧ FirstError s.arity s.fullAt e)) := by
  refine ⟨fun h => ⟨_, compile_of_not_wellShaped h, s.reported_violations⟩, fun h => ?_⟩
  refine ⟨exists_compile_eq_ok h, fun c => compile_eq_ok h, fun e => ?_⟩
  rw [compile_eq_error h, compileTrees_eq_error h]

-- The exhaustive text of the first parameter is refused, but what is reported is the type of the
-- second one.
theorem compile_unknownTypeLast : ∃ s : Spec, s.types = ["int", "in"] ∧
    s.exhaustive = ["[", "[0]"] ∧ s.WellShaped ∧ (∃ e, s.paramAt 0 = .error (.domain e)) ∧
    ∃ e, s.compile = .error (.type e) := by
  refine ⟨⟨"f", ["int", "in"], ["[", "[0]"], ["[0]", "[0]"], .integer 1⟩, rfl, rfl, ?_⟩
  have hshaped : WellShaped ⟨"f", ["int", "in"], ["[", "[0]"], ["[0]", "[0]"], .integer 1⟩ :=
    ⟨⟨1, rfl⟩, rfl, rfl⟩
  obtain ⟨_, _, herror⟩ := (compile_by_parameters _).2 hshaped
  refine ⟨hshaped, ⟨_, rfl⟩, _, (herror _).mpr (.inl ⟨1, by decide, rfl, fun i hi => ?_⟩)⟩
  obtain rfl : i = 0 := by omega
  exact ⟨_, rfl⟩

end Phases

end Spec

end CallSuite
