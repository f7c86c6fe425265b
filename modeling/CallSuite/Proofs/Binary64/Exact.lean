import CallSuite.Binary64.Shortest
import CallSuite.Proofs.Binary64.Whole

namespace CallSuite.Binary64

-- A quotient is what it is, whatever factor its terms have in common.
theorem nearest_mul_right (num den : Nat) {k : Nat} (hk : 0 < k) :
    nearest (num * k) (den * k) = nearest num den := by
  have hless (a b : Nat) : 2 * (a * k) < b * k ↔ 2 * a < b := by
    rw [← Nat.mul_assoc, Nat.mul_lt_mul_right hk]
  have hhalf (a b : Nat) : 2 * (a * k) = b * k ↔ 2 * a = b := by
    rw [← Nat.mul_assoc, Nat.mul_left_inj (Nat.ne_of_gt hk)]
  simp only [nearest, Nat.mul_div_mul_right _ _ hk, Nat.mul_mod_mul_right, hless, hhalf]

theorem roundUnits_mul_right (num den : Nat) {k : Nat} (hk : 0 < k) :
    roundUnits (num * k) (den * k) = roundUnits num den := by
  have hshift (d : Nat) : (den * k) <<< d = (den <<< d) * k := by
    simp only [Nat.shiftLeft_eq]
    exact Nat.mul_right_comm den k (2 ^ d)
  simp only [roundUnits, Nat.mul_div_mul_right _ _ hk, hshift, nearest_mul_right _ _ hk]

theorem roundRatio_mul_right (num den : Nat) {k : Nat} (hk : 0 < k) :
    roundRatio (num * k) (den * k) = roundRatio num den := by
  rw [roundRatio, roundRatio, Nat.mul_right_comm, roundUnits_mul_right _ _ hk]

variable {m : Nat}

theorem exists_scaled_of_lt_infinity (hm : m < infinity) :
    ∃ q d, Scaled q d ∧ m = d * leadingBit + q := by
  by_cases hleading : m < leadingBit
  · refine ⟨m, 0, ⟨by omega, .inr rfl, by omega⟩, by omega⟩
  · refine ⟨leadingBit + m % leadingBit, m / leadingBit - 1, ⟨?_, .inl (by omega), ?_⟩, ?_⟩
    · simp only [leadingBit] at *
      omega
    · simp only [leadingBit, infinity] at *
      omega
    · simp only [leadingBit] at *
      omega

-- A finite magnitude is the one that its own units are rounded to.
theorem roundUnits_unitsOf (hm : m < infinity) : roundUnits (unitsOf m) 1 = m := by
  obtain ⟨q, d, hscaled, rfl⟩ := exists_scaled_of_lt_infinity hm
  rw [hscaled.unitsOf_eq, hscaled.roundUnits_eq]

theorem unitsOf_pos (hm : m ≠ 0) : 0 < unitsOf m := by
  unfold unitsOf
  split
  · omega
  · rw [Nat.shiftLeft_eq]
    exact Nat.mul_pos (Nat.add_pos_left (by decide) _) (Nat.two_pow_pos _)

theorem roundDecimal_negSucc {digits e : Nat} (h : 3 * (e + 1) ≤ digits.log2 + 1076) :
    roundDecimal digits (.negSucc e) = roundRatio digits (Nat.pow 10 (e + 1)) :=
  if_neg (Nat.not_lt.mpr h)

theorem two_mul_le_log2 (n : Nat) (hm : m ≠ 0) : 2 * n ≤ (unitsOf m * Nat.pow 5 n).log2 := by
  have hle : 2 ^ (2 * n) ≤ unitsOf m * Nat.pow 5 n := by
    calc 2 ^ (2 * n) = 4 ^ n := Nat.pow_mul 2 2 n
      _ ≤ 5 ^ n := Nat.pow_le_pow_left (by decide) n
      _ ≤ unitsOf m * 5 ^ n := Nat.le_mul_of_pos_left _ (unitsOf_pos hm)
  have hne : unitsOf m * Nat.pow 5 n ≠ 0 :=
    Nat.ne_of_gt (Nat.lt_of_lt_of_le (Nat.two_pow_pos _) hle)
  exact (Nat.le_log2 hne).mpr hle

theorem roundRatio_unitsOf {n : Nat} (hn : unitsPerOne = 2 ^ n) (hm : m < infinity) :
    roundRatio (unitsOf m * Nat.pow 5 n) (Nat.pow 10 n) = m := by
  have htens : unitsOf m * Nat.pow 5 n * 2 ^ n = unitsOf m * Nat.pow 10 n := by
    rw [Nat.mul_assoc]
    exact congrArg _ (Nat.mul_pow 5 2 n).symm
  have hpos : 0 < Nat.pow 10 n := Nat.pow_pos (by decide)
  have hscale := roundUnits_mul_right (unitsOf m) 1 hpos
  rw [Nat.one_mul] at hscale
  rw [roundRatio, hn, htens, hscale, roundUnits_unitsOf hm]

-- One unit is `5 ^ 1074 * 10 ^ -1074`, so a finite magnitude has no more than so many digits.
theorem reads_unitsOf (hzero : m ≠ 0) (hm : m < infinity) :
    reads ⟨unitsOf m * Nat.pow 5 1074, -1074⟩ m := by
  obtain ⟨e, he⟩ : ∃ e, e + 1 = 1074 := ⟨1073, rfl⟩
  have hexponent : (-1074 : Int) = .negSucc e := by omega
  have hunits : unitsPerOne = 2 ^ (e + 1) := by
    rw [he]
    exact unitsPerOne_eq
  have hlog := two_mul_le_log2 (e + 1) hzero
  have hround : roundDecimal (unitsOf m * Nat.pow 5 (e + 1)) (.negSucc e) = m := by
    rw [roundDecimal_negSucc (by omega), roundRatio_unitsOf hunits hm]
  rw [hexponent, ← he]
  exact decide_eq_true hround

theorem onGrid?_reads {tie : Tie} {k : Int} {d : Decimal} (h : onGrid? tie m k = some d) :
    reads d m := by
  unfold onGrid? at h
  dsimp only at h
  split at h
  next hlo hhi =>
    split at h <;> cases h
    · exact hlo
    · exact hhi
  next hlo _ =>
    cases h
    exact hlo
  next _ hhi =>
    cases h
    exact hhi
  next => cases h

theorem shortest_reads (tie : Tie) (hm : m < infinity) : reads (shortest tie m) m := by
  unfold shortest
  split
  next hzero =>
    subst hzero
    decide
  next hzero =>
    dsimp only
    cases hfound :
        (List.range 17).findSome? fun (n : Nat) => onGrid? tie m (leadingPlace m - n) with
    | none => exact reads_unitsOf hzero hm
    | some d =>
        obtain ⟨n, _, hn⟩ := List.exists_of_findSome?_eq_some hfound
        exact onGrid?_reads hn

end CallSuite.Binary64
