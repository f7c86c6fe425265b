import CallSuite.Proofs.Clause.Progress
import CallSuite.Spec.Compiled

namespace CallSuite.TypeTree

open Clause

variable {role other : Role} {tree tree' : TypeTree} {text : String}

-- The scan comes first, and it knows no tree. What is left over at the end is noticed only after
-- the last node has got its domain.
theorem exists_decorates (tree : TypeTree) (role : Role) (text : String) :
    ∃ complete, Decorates role tree (tree.decorate role text).1 complete ∧
      ((tree.decorate role text).2 = .ok () → complete = true) ∧
      ∀ e, (tree.decorate role text).2 = .error e → complete = true →
        e.fault = .tooManyClauses := by
  unfold decorate
  dsimp only
  split
  next => exact ⟨false, .refused, nofun, nofun⟩
  next items _ =>
    refine ⟨_, align_decorates rfl, ?_⟩
    cases (align role tree items).2 with
    | error e => exact ⟨nofun, nofun⟩
    | ok rest =>
        cases rest with
        | nil => exact ⟨fun _ => rfl, nofun⟩
        | cons top rest =>
            refine ⟨fun _ => rfl, fun e he _ => ?_⟩
            cases he
            rfl

-- Decorating for one role leaves the domains of the other as they are, also where it fails.
theorem domains_decorate (hne : other ≠ role) (tree : TypeTree) (text : String) :
    (tree.decorate role text).1.domains other = tree.domains other := by
  obtain ⟨_, hdecorates, _, _⟩ := tree.exists_decorates role text
  exact hdecorates.domains_of_ne hne

theorem decorated_eq_ok :
    tree.decorated role text = .ok tree' ↔ tree.decorate role text = (tree', .ok ()) := by
  unfold decorated
  split
  next tree _ hdecorate => simp [hdecorate]
  next hdecorate => simp [hdecorate]

theorem domains_of_decorated_eq_ok (hne : other ≠ role)
    (h : tree.decorated role text = .ok tree') : tree'.domains other = tree.domains other := by
  have hdomains := domains_decorate hne tree text
  rwa [decorated_eq_ok.mp h] at hdomains

theorem all_filled_of_decorated_eq_ok (h : tree.decorated role text = .ok tree') :
    false ∉ (tree'.domains role).filled := by
  obtain ⟨_, hdecorates, hok, _⟩ := tree.exists_decorates role text
  rw [decorated_eq_ok.mp h] at hdecorates hok
  exact hdecorates.all_filled (hok rfl)

-- A tree that was decorated for both roles has everything that it is sealed with.
theorem exists_seal_of_decorated {half full : TypeTree} {exhaustive random : String}
    (hhalf : tree.decorated .exhaustive exhaustive = .ok half)
    (hfull : half.decorated .random random = .ok full) : ∃ node, full.seal = .ok node := by
  refine Tree.exists_seal fun role => ?_
  cases role with
  | exhaustive =>
      rw [domains_of_decorated_eq_ok (by decide) hfull]
      exact all_filled_of_decorated_eq_ok hhalf
  | random => exact all_filled_of_decorated_eq_ok hfull

end CallSuite.TypeTree
