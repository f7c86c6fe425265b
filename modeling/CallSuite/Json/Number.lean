import CallSuite.Binary64.Rounding
import CallSuite.Json.Basic
import CallSuite.Text.Basic

namespace CallSuite.JsonNumber

open CallSuite.Text

-- Takes digits as long as the number they make has 64 bits. The rest starts with the first one
-- that does not fit.
def takeFitting (n : Nat) : List Char → Nat × List Char
  | [] => (n, [])
  | c :: cs =>
    let n' := natOfDigits [c] + 10 * n
    if 0x10000000000000000 ≤ n' then (n, c :: cs) else takeFitting n' cs

def powerOfTen (e : Nat) : Nat := Binary64.roundRatio (Nat.pow 10 e) 1

-- Divides by the greatest power of ten that is finite until the exponent is within its reach.
-- Each quotient is rounded.
def scaleDown (m e : Nat) : Nat :=
  if 308 < e ∧ m ≠ 0 then scaleDown (Binary64.divMagnitude m (powerOfTen 308)) (e - 308)
  else if m = 0 then 0
  else Binary64.divMagnitude m (powerOfTen e)
termination_by e

-- The significand and the power of ten are each rounded, and so is what they make together. There
-- is no infinite number.
def scale? (significand : Nat) (exponent : Int) : Option Nat :=
  let m := Binary64.roundRatio significand 1
  match exponent with
  | .ofNat e =>
    if m = 0 then some 0
    else if 308 < e then none
    else
      let scaled := Binary64.mulMagnitude m (powerOfTen e)
      if scaled < Binary64.infinity then some scaled else none
  | .negSucc e => some (scaleDown m (e + 1))

def float? (negative : Bool) (significand : Nat) (exponent : Int) : Option JsonNumber :=
  (scale? significand exponent).map fun m => .float (.ofMagnitude negative m)

-- `-0` is a floating-point number, and so is a whole number that does not fit.
def whole? (negative : Bool) (n : Nat) (dropped : Nat) : Option JsonNumber :=
  if dropped = 0 ∧ !negative then some (.integer n)
  else if dropped = 0 ∧ 0 < n ∧ n ≤ 0x8000000000000000 then some (.integer (-n))
  else float? negative n dropped

-- A single zero, or digits that do not start with one.
def takeWhole? : List Char → Option (List Char × List Char)
  | '0' :: cs => some (['0'], cs)
  | cs =>
    let ds := cs.takeWhile Char.isDigit
    if ds.isEmpty then none else some (ds, cs.dropWhile Char.isDigit)

-- Digits after a point, at least one.
def takeFraction? : List Char → Option (List Char × List Char)
  | '.' :: cs =>
    let ds := cs.takeWhile Char.isDigit
    if ds.isEmpty then none else some (ds, cs.dropWhile Char.isDigit)
  | cs => some ([], cs)

-- After `e` an optional sign and at least one digit.
def takeExponent? : List Char → Option (Option Int × List Char)
  | [] => some (none, [])
  | c :: cs =>
    if c = 'e' ∨ c = 'E' then
      let (negative, cs) := splitSign cs
      let ds := cs.takeWhile Char.isDigit
      if ds.isEmpty then none
      else some (some (applySign negative (natOfDigits ds)), cs.dropWhile Char.isDigit)
    else some (none, c :: cs)

-- Digits that do not fit the significand count as places in front of the point, and behind it they
-- do not count.
def ofParts? (negative : Bool) (whole fraction : List Char) (exponent : Option Int) :
    Option JsonNumber :=
  let (n, dropped) := takeFitting 0 whole
  match fraction, exponent with
  | [], none => whole? negative n dropped.length
  | _, _ =>
    let (n, unused) := takeFitting n fraction
    let places : Int := dropped.length - (fraction.length - unused.length : Nat)
    float? negative n (places + exponent.getD 0)

def takeMinus : List Char → Bool × List Char
  | '-' :: cs => (true, cs)
  | cs => (false, cs)

-- The number at the start of the text, and what follows it.
def take? (cs : List Char) : Option (JsonNumber × List Char) := do
  let (negative, cs) := takeMinus cs
  let (whole, cs) ← takeWhole? cs
  let (fraction, cs) ← takeFraction? cs
  let (exponent, cs) ← takeExponent? cs
  let n ← ofParts? negative whole fraction exponent
  return (n, cs)

theorem length_takeWhole? (h : takeWhole? cs = some (ds, rest)) : rest.length < cs.length := by
  unfold takeWhole? at h
  split at h
  · cases h
    simp
  · dsimp only at h
    split at h
    · cases h
    · rename_i hne
      cases h
      have := congrArg List.length (List.takeWhile_append_dropWhile (p := Char.isDigit) (l := cs))
      simp only [List.length_append] at this
      have := List.length_pos_iff.mpr fun h => hne (List.isEmpty_iff.mpr h)
      omega

theorem length_takeFraction? (h : takeFraction? cs = some (ds, rest)) :
    rest.length ≤ cs.length := by
  unfold takeFraction? at h
  split at h
  · dsimp only at h
    split at h
    · cases h
    · cases h
      exact Nat.le_succ_of_le (List.dropWhile_sublist _).length_le
  · cases h
    exact Nat.le_refl _

theorem length_takeExponent? (h : takeExponent? cs = some (e, rest)) :
    rest.length ≤ cs.length := by
  unfold takeExponent? at h
  split at h
  · cases h
    exact Nat.le_refl _
  · split at h
    · dsimp only at h
      split at h
      · cases h
      · cases h
        refine Nat.le_succ_of_le (Nat.le_trans (List.dropWhile_sublist _).length_le ?_)
        unfold splitSign
        split <;> simp
    · cases h
      exact Nat.le_refl _

theorem length_take? (h : take? cs = some (n, rest)) : rest.length < cs.length := by
  unfold take? at h
  simp only [Option.bind_eq_bind, Option.bind_eq_some_iff, Option.pure_def, Option.some.injEq,
    Prod.mk.injEq] at h
  obtain ⟨⟨whole, afterWhole⟩, hw, ⟨fraction, afterFraction⟩, hf, ⟨exponent, afterExponent⟩, he,
    _, _, _, rfl⟩ := h
  have hw := length_takeWhole? hw
  have hf := length_takeFraction? hf
  have he := length_takeExponent? he
  have hs : (takeMinus cs).2.length ≤ cs.length := by unfold takeMinus; split <;> simp
  dsimp only at hf he ⊢
  omega

end CallSuite.JsonNumber
