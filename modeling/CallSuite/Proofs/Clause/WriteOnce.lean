import CallSuite.Proofs.Clause.Separation

namespace CallSuite

variable {role : Role} {tree : TypeTree}

-- The root has its domain for the role, so a further text for the role is refused there, and a
-- node behind it is still without one.
structure Tree.Stuck (role : Role) (tree : TypeTree) : Prop where
  root_filled : (tree.domains role).filled.head? = some true
  gap : false ∈ (tree.domains role).filled

theorem Tree.Stuck.exists_seal_eq_error (h : tree.Stuck role) : ∃ e, tree.seal = .error e := by
  cases hseal : tree.seal with
  | error e => exact ⟨e, rfl⟩
  | ok node =>
      have hgap := h.gap
      rw [domains_of_seal hseal] at hgap
      exact absurd hgap (not_mem_filled_of_map_some _ node)

namespace TypeTree

open Clause

variable {tree' : TypeTree} {text : String}

-- An error at the root leaves the tree as it is, and one behind the root leaves a gap behind it.
theorem eq_or_stuck_of_decorate_eq_error {e : DomainError} (htree : tree.Unfilled role)
    (h : decorate tree role text = (tree', .error e)) (hfault : e.fault ≠ .tooManyClauses) :
    tree' = tree ∨ tree'.Stuck role := by
  obtain ⟨complete, hdecorates, _, herror⟩ := tree.exists_decorates role text
  rw [h] at hdecorates herror
  have hcomplete : complete = false := by
    simpa using mt (herror e rfl) hfault
  obtain hsame | hroot := hdecorates.eq_or_root_filled
  · exact .inl hsame
  · exact .inr ⟨hroot, hdecorates.gap htree hcomplete⟩

theorem decorate_of_root_filled (h : tree.RootFilled role) (text : String) :
    ∃ e, tree.decorate role text = (tree, .error e) := by
  obtain ⟨complete, hdecorates, hok, _⟩ := tree.exists_decorates role text
  obtain ⟨hsame, hcomplete⟩ | hfree := hdecorates.refused_or_root_free
  · cases houtcome : (tree.decorate role text).2 with
    | error e => exact ⟨e, Prod.ext hsame houtcome⟩
    | ok _ =>
        rw [hok houtcome] at hcomplete
        cases hcomplete
  · cases h.symm.trans hfree

-- The tree after further texts were tried on it, whether they were accepted or not.
def afterAttempts (tree : TypeTree) (attempts : List (Role × String)) : TypeTree :=
  attempts.foldl (fun tree attempt => (tree.decorate attempt.1 attempt.2).1) tree

theorem stuck_decorate (h : tree.Stuck role) (other : Role) (text : String) :
    Tree.Stuck role (decorate tree other text).1 := by
  by_cases hrole : other = role
  · subst hrole
    obtain ⟨_, hsame⟩ := decorate_of_root_filled h.root_filled text
    rwa [hsame]
  · have hdomains := domains_decorate (Ne.symm hrole) tree text
    exact ⟨hdomains ▸ h.root_filled, hdomains ▸ h.gap⟩

theorem stuck_afterAttempts (h : tree.Stuck role) (attempts : List (Role × String)) :
    Tree.Stuck role (afterAttempts tree attempts) := by
  induction attempts generalizing tree with
  | nil => exact h
  | cons attempt attempts ih => exact ih (stuck_decorate h attempt.1 attempt.2)

-- A text that is refused half-way leaves a tree that no further text can complete. One that is
-- refused before that leaves the tree as it was.
theorem eq_or_never_sealed_of_decorate_eq_error {e : DomainError} (htree : tree.Unfilled role)
    (h : decorate tree role text = (tree', .error e)) (hfault : e.fault ≠ .tooManyClauses) :
    tree' = tree ∨ ∀ attempts, ∃ e', (afterAttempts tree' attempts).seal = .error e' := by
  obtain hsame | hstuck := eq_or_stuck_of_decorate_eq_error htree h hfault
  · exact .inl hsame
  · exact .inr fun attempts => (stuck_afterAttempts hstuck attempts).exists_seal_eq_error

theorem itemsOf_zero : itemsOf (Clause.tokens "[0]") = .ok [.values [⟨0⟩]] := by
  change List.foldrM pushToken [] [.delim '[', .word "0", .delim ']'] = _
  simp only [List.foldrM_cons, List.foldrM_nil, pushToken_open]
  rfl

-- The size of the list is taken before the domain of its items is missed.
theorem never_sealed_listOfInt :
    ∃ tree' e, Tree.Unfilled .exhaustive (.collection .list .empty (.int .empty)) ∧
      decorate (.collection .list .empty (.int .empty)) .exhaustive "[0]" = (tree', .error e) ∧
      e.fault ≠ .tooManyClauses ∧
      ∀ attempts, ∃ e', (afterAttempts tree' attempts).seal = .error e' := by
  have hunfilled : Tree.Unfilled .exhaustive (.collection .list .empty (.int .empty)) := ⟨rfl, rfl⟩
  have hdecorate : decorate (.collection .list .empty (.int .empty)) .exhaustive "[0]" =
      (.collection .list ⟨some (.cons 0 []), none⟩ (.int .empty),
        .error ⟨"[0]", .exhaustive, "", .tooFewClauses⟩) := by
    rw [decorate_of_scan itemsOf_zero]
    simp only [align, fillSizes, fillDistinct, distinct_eq]
    rfl
  have hfault : (⟨"[0]", .exhaustive, "", .tooFewClauses⟩ : DomainError).fault ≠
      .tooManyClauses := by decide
  refine ⟨_, _, hunfilled, hdecorate, hfault, ?_⟩
  obtain hsame | hnever := eq_or_never_sealed_of_decorate_eq_error hunfilled hdecorate hfault
  · cases hsame
  · exact hnever

theorem decorate_int_zero {s s' : Slots Int} (hs : s.get role = none)
    (hs' : s.Fills role [0] s') : decorate (.int s) role "[0]" = (.int s', .ok ()) := by
  have hzero : Binary64.read? "0".toList = some ⟨0⟩ := by decide
  have htree : Tree.Unfilled role (.int s) := hs
  exact decorate_of_written htree
    (.int ⟨[⟨0⟩], .inl (.mk (.last hzero)), [0], by decide, by decide⟩ hs')

-- A bracket without its partner is found before the tree is touched, so the next texts complete it.
-- A clause too many is found when the tree has all its domains for the role.
theorem sealed_after_refused_text :
    (∀ role, Tree.Unfilled role (.int .empty)) ∧
      (∃ tree' e, decorate (.int .empty) .exhaustive "[0" = (tree', .error e) ∧
        (afterAttempts tree' [(.exhaustive, "[0]"), (.random, "[0]")]).seal =
          .ok (.int ⟨.cons 0 [], .cons 0 []⟩)) ∧
      ∃ tree' e, decorate (.int .empty) .exhaustive "[0][0]" = (tree', .error e) ∧
        (afterAttempts tree' [(.random, "[0]")]).seal = .ok (.int ⟨.cons 0 [], .cons 0 []⟩) := by
  have hopen : decorate (.int .empty) .exhaustive "[0" =
      (.int .empty, .error ⟨"[0", .exhaustive, "[", .unmatchedBracket⟩) := rfl
  have hitems : itemsOf (Clause.tokens "[0][0]") = .ok [.values [⟨0⟩], .values [⟨0⟩]] := by
    change List.foldrM pushToken []
      [.delim '[', .word "0", .delim ']', .delim '[', .word "0", .delim ']'] = _
    simp only [List.foldrM_cons, List.foldrM_nil, pushToken_open]
    rfl
  have hextra : decorate (.int .empty) .exhaustive "[0][0]" =
      (.int ⟨some (.cons 0 []), none⟩,
        .error ⟨"[0][0]", .exhaustive, "[0]", .tooManyClauses⟩) := by
    rw [decorate_of_scan hitems]
    simp only [align, fillDistinct, distinct_eq]
    rfl
  have hfirst : decorate (.int .empty) .exhaustive "[0]" =
      (.int ⟨some (.cons 0 []), none⟩, .ok ()) := decorate_int_zero rfl ⟨_, rfl, rfl⟩
  have hsecond : decorate (.int ⟨some (.cons 0 []), none⟩) .random "[0]" =
      (.int ⟨some (.cons 0 []), some (.cons 0 [])⟩, .ok ()) := decorate_int_zero rfl ⟨_, rfl, rfl⟩
  refine ⟨fun role => Slots.get_empty role, ⟨_, _, hopen, ?_⟩, _, _, hextra, ?_⟩
  · rw [afterAttempts, List.foldl_cons, List.foldl_cons, hfirst, hsecond]
    rfl
  · rw [afterAttempts, List.foldl_cons, hsecond]
    rfl

end TypeTree

end CallSuite
