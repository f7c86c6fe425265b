import CallSuite.Proofs.Clause.Attempts
import CallSuite.Proofs.Clause.OneRole

namespace CallSuite

namespace TypeTree

variable {role other : Role} {tree tree' : TypeTree}

-- Whether a text is refused, and with what, comes from the domains of its own role as well.
theorem outcome_congr (h : tree.domains role = tree'.domains role) (text : String) :
    (tree.decorate role text).2 = (tree'.decorate role text).2 := by
  have honly (tree : TypeTree) :
      (tree.decorate role text).2 = ((tree.only role).decorate role text).2 := by
    rw [decorate_only]
  rw [honly tree, honly tree', Tree.only_eq_of_domains_eq h]

-- A text for another role is not noticed, however far it got.
theorem outcome_decorate (hne : role ≠ other) (tree : TypeTree) (a b : String) :
    ((tree.decorate other b).1.decorate role a).2 = (tree.decorate role a).2 := by
  apply outcome_congr
  exact domains_decorate hne tree b

theorem domains_decorate_decorate (hne : role ≠ other) (tree : TypeTree) (a b : String) :
    ((tree.decorate other b).1.decorate role a).1.domains role =
      (tree.decorate role a).1.domains role := by
  apply domains_decorate_congr
  exact domains_decorate hne tree b

theorem decorate_decorate_comm (hne : role ≠ other) (tree : TypeTree) (a b : String) :
    ((tree.decorate role a).1.decorate other b).1 =
      ((tree.decorate other b).1.decorate role a).1 := by
  apply Tree.ext_domains
  intro seen
  by_cases hseen : seen = role
  · subst hseen
    rw [domains_decorate hne, domains_decorate_decorate hne]
  by_cases hother : seen = other
  · subst hother
    rw [domains_decorate_decorate (Ne.symm hne), domains_decorate (Ne.symm hne)]
  · rw [domains_decorate hother, domains_decorate hseen, domains_decorate hseen,
      domains_decorate hother]

-- The text for one role and the text for the other may come in either order, with any domains in
-- the tree before them and also where one or both are given up half-way.
theorem decorate_either_order (tree : TypeTree) (a b : String) :
    ((tree.decorate .exhaustive a).1.decorate .random b).1 =
      ((tree.decorate .random b).1.decorate .exhaustive a).1 ∧
    ((tree.decorate .random b).1.decorate .exhaustive a).2 = (tree.decorate .exhaustive a).2 ∧
    ((tree.decorate .exhaustive a).1.decorate .random b).2 = (tree.decorate .random b).2 := by
  have hne : Role.exhaustive ≠ .random := by decide
  exact ⟨decorate_decorate_comm hne tree a b, outcome_decorate hne tree a b,
    outcome_decorate (Ne.symm hne) tree b a⟩

-- Of any attempts, those for the other role could as well not have been made.
theorem domains_afterAttempts (tree : TypeTree) (role : Role) (attempts : List (Role × String)) :
    (afterAttempts tree attempts).domains role =
      (afterAttempts tree (attempts.filter (·.1 = role))).domains role := by
  have hcongr {tree tree' : TypeTree} (h : tree.domains role = tree'.domains role) :
      (afterAttempts tree attempts).domains role =
        (afterAttempts tree' (attempts.filter (·.1 = role))).domains role := by
    induction attempts generalizing tree tree' with
    | nil => exact h
    | cons attempt attempts ih =>
        obtain ⟨tried, text⟩ := attempt
        by_cases htried : tried = role
        · subst htried
          rw [List.filter_cons_of_pos (by simp)]
          apply ih
          exact domains_decorate_congr h text
        · rw [List.filter_cons_of_neg (by simp [htried])]
          apply ih
          rw [domains_decorate (Ne.symm htried), h]
  exact hcongr rfl

-- So only the order of the texts for one and the same role counts.
theorem afterAttempts_eq_of_filter_eq {attempts attempts' : List (Role × String)}
    (h : ∀ role, attempts.filter (·.1 = role) = attempts'.filter (·.1 = role))
    (tree : TypeTree) : afterAttempts tree attempts = afterAttempts tree attempts' := by
  apply Tree.ext_domains
  intro role
  rw [domains_afterAttempts, h role, ← domains_afterAttempts]

end TypeTree

end CallSuite
