import CallSuite.Proofs.Exhaustive.Estimate

namespace CallSuite.Estimate

-- A difference that is less than nothing is not there, and neither is a quotient by zero.
def sub? (a b : Nat) : Option Nat := if b ≤ a then some (a - b) else none

def div? (a b : Nat) : Option Nat := if b = 0 then none else some (a / b)

-- The coefficient by the same steps, each of them checked.
def binomialUpTo? (n : Nat) : Nat → Option Nat
  | 0 => some 1
  | i + 1 => do
    let c ← binomialUpTo? n i
    let factor ← sub? n i
    div? (mul c factor) (i + 1)

def binomial? (n k : Nat) : Option Nat :=
  if n < k then some 0
  else do
    let spare ← sub? n k
    binomialUpTo? n (min k spare)

theorem sub?_eq_some {a b : Nat} (h : b ≤ a) : sub? a b = some (a - b) := if_pos h

theorem div?_eq_some {a b : Nat} (h : b ≠ 0) : div? a b = some (a / b) := if_neg h

theorem binomialUpTo?_eq_some {n i : Nat} (h : i ≤ n) :
    binomialUpTo? n i = some (binomialUpTo n i) := by
  induction i with
  | zero => rfl
  | succ i ih =>
      rw [binomialUpTo?, ih (by omega), Option.bind_eq_bind, Option.bind_some,
        sub?_eq_some (by omega), Option.bind_some, div?_eq_some i.succ_ne_zero, binomialUpTo_succ]

theorem binomial?_eq_some (n k : Nat) : binomial? n k = some (binomial n k) := by
  unfold binomial?
  split_ifs with hlt
  · rw [binomial, if_pos hlt]
  · rw [sub?_eq_some (by omega), Option.bind_eq_bind, Option.bind_some,
      binomialUpTo?_eq_some (by omega), binomial_eq (by omega)]

-- Below the middle every factor is greater than the divisor before it. So of all that a product was
-- divided by after it was cut at the limit, only the last divisor is seen.
theorem min_mul_limit_div {i factor : Nat} (hi : i ≠ 0) (hfactor : i + 1 ≤ factor) :
    mul (limit / i) factor / (i + 1) = limit / (i + 1) := by
  have hshare : limit / (i + 1) ≤ limit / i := Nat.div_le_div_left (by omega) (by omega)
  have hproduct : limit / (i + 1) * (i + 1) ≤ limit / i * factor := Nat.mul_le_mul hshare hfactor
  apply Nat.le_antisymm
  · exact Nat.div_le_div_right (Nat.min_le_right _ _)
  · rw [Nat.le_div_iff_mul_le i.succ_pos, mul, Nat.le_min]
    exact ⟨hproduct, Nat.div_mul_le_self _ _⟩

theorem binomialUpTo_eq {n i : Nat} (h : 2 * i ≤ n) :
    binomialUpTo n i = if n.choose i * i ≤ limit then n.choose i else limit / i := by
  induction i with
  | zero => simp [binomialUpTo]
  | succ i ih =>
      have hnext : n.choose (i + 1) * (i + 1) = n.choose i * (n - i) := Nat.choose_succ_right_eq n i
      rw [binomialUpTo_succ, ih (by omega)]
      by_cases hfits : n.choose i * i ≤ limit
      · rw [if_pos hfits, mul, ← hnext]
        by_cases hproduct : n.choose (i + 1) * (i + 1) ≤ limit
        · rw [if_pos hproduct, Nat.min_eq_left hproduct, Nat.mul_div_cancel _ i.succ_pos]
        · rw [if_neg hproduct, Nat.min_eq_right (by omega)]
      · have hi : i ≠ 0 := by
          rintro rfl
          exact hfits (Nat.zero_le _)
        have hproduct : n.choose i * i ≤ n.choose (i + 1) * (i + 1) := by
          rw [hnext]
          exact Nat.mul_le_mul_left _ (by omega)
        rw [if_neg hfits, if_neg (by omega), min_mul_limit_div hi (by omega)]

-- The coefficient itself if the last product fits, and else one share of the limit.
theorem binomial_eq_choose_or_share (n k : Nat) : binomial n k =
    if n.choose k * min k (n - k) ≤ limit then n.choose k else limit / min k (n - k) := by
  rcases Nat.lt_or_ge n k with hlt | hle
  · rw [binomial, if_pos hlt, Nat.choose_eq_zero_of_lt hlt, Nat.zero_mul, if_pos (Nat.zero_le _)]
  · rw [binomial_eq hle, binomialUpTo_eq (by omega), choose_min_sub hle]

theorem choose_le_limit {n k : Nat} (h : n.choose k * min k (n - k) ≤ limit) :
    n.choose k ≤ limit := by
  rcases Nat.eq_zero_or_pos (min k (n - k)) with hzero | hpos
  · rcases Nat.lt_or_ge n k with hlt | hle
    · rw [Nat.choose_eq_zero_of_lt hlt]
      exact Nat.zero_le _
    · rw [← choose_min_sub hle, hzero, Nat.choose_zero_right]
      decide
  · exact (Nat.le_mul_of_pos_right _ hpos).trans h

-- With no step or with one the last product is 0 or `n`, and is not cut.
theorem two_le_of_limit_lt {n k : Nat} (hn : n ≤ limit)
    (h : limit < n.choose k * min k (n - k)) : 2 ≤ min k (n - k) := by
  by_contra hfew
  rcases Nat.lt_or_ge n k with hlt | hle
  · rw [Nat.choose_eq_zero_of_lt hlt] at h
    omega
  · rw [← choose_min_sub hle] at h
    obtain hzero | hone : min k (n - k) = 0 ∨ min k (n - k) = 1 := by omega
    · rw [hzero, Nat.mul_zero] at h
      omega
    · rw [hone, Nat.choose_one_right, Nat.mul_one] at h
      omega

-- No step takes away more than there is or divides by zero. What comes out is the coefficient, or
-- the limit if that is less, exactly as long as the last product fits: divisions go on after a
-- product was cut at the limit, and take away from it.
theorem binomial_saturates_iff (n k : Nat) (hn : n ≤ limit) :
    binomial? n k = some (binomial n k) ∧
      (binomial n k =
        if n.choose k * min k (n - k) ≤ limit then n.choose k else limit / min k (n - k)) ∧
      (binomial n k = min (n.choose k) limit ↔ n.choose k * min k (n - k) ≤ limit) := by
  refine ⟨binomial?_eq_some n k, binomial_eq_choose_or_share n k, ?_⟩
  rw [binomial_eq_choose_or_share]
  split_ifs with hfits
  · exact iff_of_true (Nat.min_eq_left (choose_le_limit hfits)).symm hfits
  · refine iff_of_false (fun hmin => ?_) hfits
    have htwo := two_le_of_limit_lt hn (Nat.not_le.mp hfits)
    have hshare : limit / min k (n - k) < limit := Nat.div_lt_self (by decide) htwo
    have hchoose : limit / min k (n - k) = n.choose k := by omega
    rw [← hchoose] at hfits
    exact hfits (Nat.div_mul_le_self _ _)

-- The coefficient fits, but the last product on the way to it does not.
theorem binomial_saturates_halfway : 126 ≤ limit ∧ Nat.choose 126 61 ≤ limit ∧
    binomial? 126 61 = some (limit / 61) ∧ binomial 126 61 ≠ min (Nat.choose 126 61) limit := by
  obtain ⟨hchecked, hshare, hmin⟩ := binomial_saturates_iff 126 61 (by decide)
  rw [Nat.choose_eq_descFactorial_div_factorial] at hshare hmin ⊢
  have hproduct : ¬Nat.descFactorial 126 61 / Nat.factorial 61 * min 61 (126 - 61) ≤ limit := by
    decide +kernel
  rw [if_neg hproduct] at hshare
  refine ⟨by decide, by decide +kernel, ?_, fun h => hproduct (hmin.mp h)⟩
  rw [hchecked, hshare]
  rfl

-- Neither a coefficient that fits nor one that is too great is always what it should be.
theorem binomial_wrong_on_either_side :
    (Nat.choose 126 61 ≤ limit ∧ binomial 126 61 < Nat.choose 126 61) ∧
      (limit < Nat.choose 132 64 ∧ binomial 132 64 < limit) := by
  rw [Nat.choose_eq_descFactorial_div_factorial, Nat.choose_eq_descFactorial_div_factorial]
  decide +kernel

end CallSuite.Estimate
