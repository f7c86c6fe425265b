import CallSuite.Random.Source
import Mathlib.Data.List.Basic

namespace CallSuite

variable {σ α : Type}

section Times

variable {step : σ → α × σ}

@[simp] theorem length_times (n : Nat) (s : σ) : (times n step s).1.length = n := by
  induction n generalizing s with
  | zero => rfl
  | succ n ih => rw [times_succ, List.length_cons, ih]

-- What every step gives whatever it draws from, all steps in a row give.
theorem forall_mem_times (step : σ → α × σ) {P : α → Prop} (h : ∀ s, P (step s).1) (n : Nat)
    (s : σ) : ∀ x ∈ (times n step s).1, P x := by
  induction n generalizing s with
  | zero => simp [times_zero]
  | succ n ih =>
      rw [times_succ]
      exact List.forall_mem_cons.mpr ⟨h s, ih (step s).2⟩

-- Later steps go on from where the earlier ones stopped.
theorem times_add (m n : Nat) (s : σ) :
    times (m + n) step s =
      ((times m step s).1 ++ (times n step (times m step s).2).1,
        (times n step (times m step s).2).2) := by
  induction m generalizing s with
  | zero => rw [Nat.zero_add, times_zero, List.nil_append]
  | succ m ih =>
      rw [Nat.add_right_comm, times_succ, ih, times_succ]
      rfl

end Times

theorem drawFrom_mem [IndexSource σ] (xs : Array α) (h : 0 < xs.size) (s : σ) :
    (drawFrom xs h s).1 ∈ xs :=
  Array.getElem_mem _

end CallSuite
