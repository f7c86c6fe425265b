import CallSuite.Binary64.Rounding

namespace CallSuite

-- The number `digits * 10 ^ exponent`.
structure Decimal where
  digits : Nat
  exponent : Int

namespace Decimal

-- The same number without zeros at the end of its digits.
def dropZeros (digits : Nat) (exponent : Int) : Decimal :=
  if 0 < digits ∧ digits % 10 = 0 then dropZeros (digits / 10) (exponent + 1)
  else ⟨digits, exponent⟩
termination_by digits
decreasing_by omega

end Decimal

namespace Binary64

-- Which neighbour is written for a number halfway between two.
inductive Tie where
  | up
  | even
deriving DecidableEq

-- The magnitude `m` in steps of `10 ^ k`, as a quotient.
def inSteps (m : Nat) (k : Int) : Nat × Nat :=
  match k with
  | .ofNat k => (unitsOf m, unitsPerOne * Nat.pow 10 k)
  | .negSucc k => (unitsOf m * Nat.pow 10 (k + 1), unitsPerOne)

-- Whether reading the decimal gives the magnitude `m`.
def reads (d : Decimal) (m : Nat) : Bool := roundDecimal d.digits d.exponent = m

-- The neighbour of `m` on the grid `10 ^ k` that reads back as `m`, the nearer one if both do.
def onGrid? (tie : Tie) (m : Nat) (k : Int) : Option Decimal :=
  let (num, den) := inSteps m k
  let floor := num / den
  let rest := 2 * (num % den)
  let lo := Decimal.dropZeros floor k
  let hi := Decimal.dropZeros (floor + 1) k
  match reads lo m, reads hi m with
  | true, true =>
    if rest < den ∨ (rest = den ∧ tie = .even ∧ floor % 2 = 0) then some lo else some hi
  | true, false => some lo
  | false, true => some hi
  | false, false => none

-- The place of the leading digit of `m`: from its binary place, then one step up or down.
def leadingPlace (m : Nat) : Int :=
  let guess := (((unitsOf m).log2 - 1074 : Int) * 30103).fdiv 100000
  let reaches (k : Int) : Bool := let (num, den) := inSteps m k; den ≤ num
  if reaches (guess + 1) then guess + 1 else if reaches guess then guess else guess - 1

-- The fewest digits that read back as the finite magnitude `m`. Seventeen are enough, and all its
-- digits always are.
def shortest (tie : Tie) (m : Nat) : Decimal :=
  if m = 0 then ⟨0, 0⟩
  else
    let place := leadingPlace m
    let found := (List.range 17).findSome? fun (n : Nat) => onGrid? tie m (place - n)
    found.getD ⟨unitsOf m * Nat.pow 5 1074, -1074⟩

end Binary64

end CallSuite
