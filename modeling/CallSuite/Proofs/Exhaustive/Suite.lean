import CallSuite.Proofs.Exhaustive.Conforming
import CallSuite.Proofs.Exhaustive.Estimate
import Mathlib.Algebra.BigOperators.Ring.List

namespace CallSuite

variable {params : List Node} {suite : List TestCase}

-- How many values there are to choose from for each parameter.
def choiceSizes (params : List Node) : List Nat :=
  params.map fun node => node.exhaustiveValues.length

-- The suite has a case for each choice of one value for each parameter, and no case twice. The
-- choices are in the lexicographic order of the places that the values have among those of their
-- parameter.
structure ListsChoices (params : List Node) (suite : List TestCase) : Prop where
  mem_iff : ∀ t, t ∈ suite ↔ List.Forall₂ (fun v (node : Node) => v ∈ node.exhaustiveValues)
    t.args params
  nodup : suite.Nodup
  length_eq : suite.length = (choiceSizes params).prod
  args_eq : ∀ k t, suite[k]? = some t → t.args.map some =
    List.zipWith (fun (node : Node) place => node.exhaustiveValues[place]?) params
      (places (choiceSizes params) k)
  places_lt : ∀ j k, j < k → k < suite.length →
    places (choiceSizes params) j < places (choiceSizes params) k

theorem mem_exhaustiveSuite {t : TestCase} : t ∈ exhaustiveSuite params ↔
    List.Forall₂ (fun v (node : Node) => v ∈ node.exhaustiveValues) t.args params := by
  rw [exhaustiveSuite, List.mem_map]
  constructor
  · rintro ⟨args, hargs, rfl⟩
    exact List.forall₂_map_right_iff.mp (mem_product.mp hargs)
  · intro h
    exact ⟨t.args, mem_product.mpr (List.forall₂_map_right_iff.mpr h), rfl⟩

theorem nodup_exhaustiveSuite (params : List Node) : (exhaustiveSuite params).Nodup := by
  refine (nodup_product ?_).map fun _ _ h => TestCase.mk.inj h
  intro values hvalues
  obtain ⟨node, _, rfl⟩ := List.mem_map.mp hvalues
  exact node.nodup_exhaustiveValues

theorem args_of_getElem?_exhaustiveSuite {k : Nat} {t : TestCase}
    (h : (exhaustiveSuite params)[k]? = some t) : t.args.map some =
      List.zipWith (fun (node : Node) place => node.exhaustiveValues[place]?) params
        (places (choiceSizes params) k) := by
  rw [exhaustiveSuite, List.getElem?_map] at h
  obtain ⟨args, hargs, rfl⟩ := Option.map_eq_some_iff.mp h
  have hplaces := map_some_of_getElem?_product hargs
  rw [List.map_map, List.zipWith_map_left] at hplaces
  exact hplaces

theorem exhaustiveSuite_eq_nil_iff :
    exhaustiveSuite params = [] ↔ ∃ node ∈ params, node.exhaustiveValues = [] := by
  rw [← List.length_eq_zero_iff, length_exhaustiveSuite, List.prod_eq_zero_iff, List.mem_map]
  simp only [List.length_eq_zero_iff]

-- Without parameters there is one choice, and a parameter without values leaves none.
theorem exhaustiveSuite_lists_choices (params : List Node) :
    ListsChoices params (exhaustiveSuite params) ∧
      exhaustiveSuite [] = [⟨[]⟩] ∧
      (exhaustiveSuite params = [] ↔ ∃ node ∈ params, node.exhaustiveValues = []) := by
  have hlength : (exhaustiveSuite params).length = (choiceSizes params).prod :=
    length_exhaustiveSuite params
  refine ⟨⟨fun t => mem_exhaustiveSuite, nodup_exhaustiveSuite params, hlength, ?_, ?_⟩, rfl,
    exhaustiveSuite_eq_nil_iff⟩
  · exact fun k t => args_of_getElem?_exhaustiveSuite
  · intro j k hjk hk
    rw [hlength] at hk
    exact places_lt hjk hk

end CallSuite
