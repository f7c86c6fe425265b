import CallSuite.Binary64.Basic

namespace CallSuite.Binary64

-- The whole number nearest to `num / den`, and halfway the even one.
def nearest (num den : Nat) : Nat :=
  let q := num / den
  let r := num % den
  if 2 * r < den ∨ (2 * r = den ∧ q % 2 = 0) then q else q + 1

-- The magnitude nearest to `num / den` units. A significand has 53 bits, so from `2 ^ 53` units on
-- the last bits of the quotient are rounded away. A significand that rounds up to `2 ^ 53` carries
-- into the exponent, which is the next magnitude.
def roundUnits (num den : Nat) : Nat :=
  let dropped := (num / den).log2 - 52
  min (dropped * leadingBit + nearest num (den <<< dropped)) infinity

def roundRatio (num den : Nat) : Nat := roundUnits (num * unitsPerOne) den

def ofInt (i : Int) : Binary64 := ofMagnitude (i < 0) (roundRatio i.natAbs 1)

-- The magnitude nearest to `digits * 10 ^ exponent`. Far outside the range of finite numbers the
-- power is not computed.
def roundDecimal (digits : Nat) (exponent : Int) : Nat :=
  match exponent with
  | .ofNat e =>
    if digits = 0 then 0
    else if 310 < e then infinity
    else roundRatio (digits * Nat.pow 10 e) 1
  | .negSucc e =>
    if digits.log2 + 1076 < 3 * (e + 1) then 0 else roundRatio digits (Nat.pow 10 (e + 1))

-- Products and quotients of finite magnitudes, rounded once.
def mulMagnitude (a b : Nat) : Nat := roundUnits (unitsOf a * unitsOf b) unitsPerOne

def divMagnitude (a b : Nat) : Nat := roundUnits (unitsOf a * unitsPerOne) (unitsOf b)

end CallSuite.Binary64
