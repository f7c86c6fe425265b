import CallSuite.Proofs.Clause.Filled
import CallSuite.Proofs.Clause.OneRole

namespace CallSuite

open TypeTree

variable {type exhaustive random : String} {node : Node}

theorem compileParam_eq_ok {type exhaustive random : String} {node : Node} :
    compileParam type exhaustive random = .ok node ↔ ∃ bare half full,
      TypeTree.ofText type = .ok bare ∧ bare.decorate .exhaustive exhaustive = (half, .ok ()) ∧
      half.decorate .random random = (full, .ok ()) ∧ full.seal = .ok node := by
  simp only [compileParam, bind_eq_ok, mapError_eq_ok, TypeTree.decorated_eq_ok]
  constructor
  · rintro ⟨bare, hbare, half, hhalf, full, hfull, hseal⟩
    exact ⟨bare, half, full, hbare, hhalf, hfull, hseal⟩
  · rintro ⟨bare, half, full, hbare, hhalf, hfull, hseal⟩
    exact ⟨bare, hbare, half, hhalf, full, hfull, hseal⟩

-- The numbers of a float are the ones that its clauses denote.
theorem compileParam_float {d d' : Domain Binary64}
    (h : Clause.Denotes (Clause.tokens exhaustive) d.toList)
    (h' : Clause.Denotes (Clause.tokens random) d'.toList) :
    compileParam "float" exhaustive random = .ok (.float ⟨d, d'⟩) :=
  compileParam_eq_ok.mpr ⟨.float .empty, .float ⟨some d, none⟩, .float ⟨some d, some d'⟩, rfl,
    decorate_of_written (by exact rfl) (.float h ⟨d, rfl, rfl⟩),
    decorate_of_written (by exact rfl) (.float h' ⟨d', rfl, rfl⟩), rfl⟩

-- The text of a role alone gives a node its domains for the role.
theorem domains_of_compileParam_eq_ok (h : compileParam type exhaustive random = .ok node) :
    ∃ bare, ofText type = .ok bare ∧
      (bare.decorate .exhaustive exhaustive).1.domains .exhaustive =
        node.map (fun d => (some d.exhaustive : Slot _)) ∧
      (bare.decorate .random random).1.domains .random =
        node.map (fun d => (some d.random : Slot _)) := by
  obtain ⟨bare, half, full, hbare, hhalf, hfull, hseal⟩ := compileParam_eq_ok.mp h
  refine ⟨bare, hbare, ?_, ?_⟩
  · have hkept : full.domains .exhaustive = half.domains .exhaustive := by
      have hdomains := domains_decorate (show Role.exhaustive ≠ .random by decide) half random
      rwa [hfull] at hdomains
    rw [hhalf, ← hkept, Tree.domains_of_seal hseal]
    rfl
  · have hkept : half.domains .random = bare.domains .random := by
      have hdomains := domains_decorate (show Role.random ≠ .exhaustive by decide) bare exhaustive
      rwa [hhalf] at hdomains
    rw [← domains_decorate_congr hkept, hfull, Tree.domains_of_seal hseal]
    rfl

-- The domains of each role are written in one of the texts, and the texts change no alphabet.
theorem written_of_compileParam_eq_ok (h : compileParam type exhaustive random = .ok node) :
    ∃ bare half full, TypeTree.ofText type = .ok bare ∧ node.alphabets = bare.alphabets ∧
      Clause.Written .exhaustive bare (Clause.tokens exhaustive) half ∧
      half.domains .exhaustive = node.map (fun d => (some d.exhaustive : Slot _)) ∧
      Clause.Written .random half (Clause.tokens random) full ∧
      full.domains .random = node.map (fun d => (some d.random : Slot _)) := by
  obtain ⟨bare, half, full, hbare, hhalf, hfull, hseal⟩ := compileParam_eq_ok.mp h
  have hkept := domains_decorate (show Role.exhaustive ≠ .random by decide) half random
  rw [hfull, Tree.domains_of_seal hseal] at hkept
  have hexhaustive := written_of_decorate_eq_ok hhalf
  have hrandom := written_of_decorate_eq_ok hfull
  have hnode : full.alphabets = node.alphabets := by
    rw [Tree.seal_eq_ok.mp hseal, Tree.alphabets_map]
  exact ⟨bare, half, full, hbare,
    hnode.symm.trans (hrandom.alphabets_eq.trans hexhaustive.alphabets_eq), hexhaustive,
    hkept.symm, hrandom, Tree.domains_of_seal hseal .random⟩

end CallSuite
