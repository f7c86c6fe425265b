import CallSuite.Proofs.Clause.WriteOnce
import CallSuite.Proofs.Tree.Descent

namespace CallSuite.TypeTree

open CallSuite.Clause

variable {role : Role} {tree : TypeTree}

theorem unfilled_of_ofText {text : String} (h : ofText text = .ok tree) (role : Role) :
    tree.Unfilled role := by
  rw [ofText, mapError_eq_ok, ofTokens_eq_ok_iff] at h
  exact h.unfilled role

theorem afterAttempts_append (tree : TypeTree) (attempts further : List (Role × String)) :
    afterAttempts tree (attempts ++ further) =
      afterAttempts (afterAttempts tree attempts) further :=
  List.foldl_append

theorem filledFirst_decorate (h : FilledFirst (tree.domains role).filled) (other : Role)
    (text : String) : FilledFirst ((tree.decorate other text).1.domains role).filled := by
  by_cases hrole : role = other
  · subst hrole
    obtain ⟨_, hdecorates, _, _⟩ := tree.exists_decorates role text
    obtain ⟨hsame, _⟩ | hfree := hdecorates.refused_or_root_free
    · rwa [hsame]
    · exact hdecorates.filledFirst (Tree.unfilled_iff.mpr (h.none_of_head hfree))
  · rwa [domains_decorate hrole]

theorem filledFirst_afterAttempts (h : FilledFirst (tree.domains role).filled)
    (attempts : List (Role × String)) :
    FilledFirst ((afterAttempts tree attempts).domains role).filled := by
  induction attempts generalizing tree with
  | nil => exact h
  | cons attempt attempts ih => exact ih (filledFirst_decorate h attempt.1 attempt.2)

theorem keeps_afterAttempts (tree : TypeTree) (attempts : List (Role × String)) :
    tree.Keeps (afterAttempts tree attempts) := by
  induction attempts generalizing tree with
  | nil => exact .refl tree
  | cons attempt attempts ih =>
      obtain ⟨_, hdecorates, _, _⟩ := tree.exists_decorates attempt.1 attempt.2
      exact hdecorates.keeps.trans (ih _)

-- Whatever texts are tried on a tree, for whichever role: its type stays, the two roles do not
-- touch each other, and what was filled stays filled, from the root on.
theorem afterAttempts_write_once {text : String} (h : ofText text = .ok tree)
    (attempts : List (Role × String)) :
    (afterAttempts tree attempts).shape = tree.shape ∧
    (∀ role, FilledFirst ((afterAttempts tree attempts).domains role).filled) ∧
    (∀ role other text, other ≠ role →
      (decorate (afterAttempts tree attempts) role text).1.domains other =
        (afterAttempts tree attempts).domains other) ∧
    (∀ role text e, itemsOf (Clause.tokens text) = .error e →
      decorate (afterAttempts tree attempts) role text =
        (afterAttempts tree attempts, .error ⟨text, role, e.1, e.2⟩)) ∧
    ∀ further, (afterAttempts tree attempts).Keeps (afterAttempts tree (attempts ++ further)) ∧
      ∀ role, (afterAttempts tree attempts).RootFilled role → ∀ text,
        ∃ e, decorate (afterAttempts tree (attempts ++ further)) role text =
          (afterAttempts tree (attempts ++ further), .error e) := by
  have hkeeps := keeps_afterAttempts tree attempts
  refine ⟨hkeeps.shape_eq, fun role => ?_, fun role other text hne => domains_decorate hne _ text,
    fun role text e he => decorate_of_scan_error he _ role, fun further => ?_⟩
  · have hnone := Tree.unfilled_iff.mp (unfilled_of_ofText h role)
    exact filledFirst_afterAttempts (.of_none hnone) attempts
  · have hlater :
        (afterAttempts tree attempts).Keeps (afterAttempts tree (attempts ++ further)) := by
      rw [afterAttempts_append]
      exact keeps_afterAttempts _ further
    exact ⟨hlater, fun role hroot text => decorate_of_root_filled (hlater.rootFilled hroot) text⟩

-- The text ends in front of the value of the dict, which stays without a domain for good.
theorem write_once_dictOfIntAndBool : ∃ tree, ofText "dict(int:bool)" = .ok tree ∧
    (afterAttempts tree [(.exhaustive, "[0]([0]")]).shape = tree.shape ∧
    ((afterAttempts tree [(.exhaustive, "[0]([0]")]).domains .exhaustive).filled =
      [true, true, false] ∧
    FilledFirst ((afterAttempts tree [(.exhaustive, "[0]([0]")]).domains .exhaustive).filled ∧
    ∀ further text, ∃ e,
      decorate (afterAttempts tree ([(.exhaustive, "[0]([0]")] ++ further)) .exhaustive text =
        (afterAttempts tree ([(.exhaustive, "[0]([0]")] ++ further), .error e) := by
  have htree : ofText "dict(int:bool)" = .ok (.dict .empty (.int .empty) (.bool .empty)) := rfl
  have hitems : itemsOf (Clause.tokens "[0]([0]") =
      .ok [.values [⟨0⟩], .delim '(', .values [⟨0⟩]] := by
    change List.foldrM pushToken []
      [.delim '[', .word "0", .delim ']', .delim '(', .delim '[', .word "0", .delim ']'] = _
    simp only [List.foldrM_cons, List.foldrM_nil, pushToken_open]
    rfl
  have hhalf : afterAttempts (.dict .empty (.int .empty) (.bool .empty))
      [(.exhaustive, "[0]([0]")] = .dict ⟨some (.cons 0 []), none⟩ (.int ⟨some (.cons 0 []), none⟩)
        (.bool .empty) := by
    simp only [afterAttempts, List.foldl, decorate_of_scan hitems, align, fillSizes, fillDistinct,
      distinct_eq]
    rfl
  obtain ⟨hshape, hfilled, _, _, hlater⟩ :=
    afterAttempts_write_once htree [(.exhaustive, "[0]([0]")]
  refine ⟨_, htree, hshape, ?_, hfilled .exhaustive, fun further => ?_⟩
  · rw [hhalf]
    rfl
  · exact (hlater further).2 .exhaustive (by rw [hhalf]; rfl)

end CallSuite.TypeTree
