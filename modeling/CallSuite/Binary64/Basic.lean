namespace CallSuite

-- A double-precision number is its 64 bits, so two numbers are the same when all their bits are:
-- signed zeros differ, and each NaN equals itself.
structure Binary64 where
  bits : UInt64
deriving DecidableEq, Hashable

namespace Binary64

def signBit : Nat := 0x8000000000000000

-- The bits below the sign. They order like the absolute values they stand for.
def magnitude (x : Binary64) : Nat := x.bits.toNat % signBit

def isNegative (x : Binary64) : Bool := signBit ≤ x.bits.toNat

def infinity : Nat := 0x7ff0000000000000

def ofMagnitude (negative : Bool) (m : Nat) : Binary64 :=
  ⟨UInt64.ofNat (if negative then signBit + m else m)⟩

def isNaN (x : Binary64) : Bool := infinity < x.magnitude

def isFinite (x : Binary64) : Bool := x.magnitude < infinity

-- The leading bit of a significand is not stored unless the exponent is least.
def leadingBit : Nat := 0x10000000000000

-- A finite magnitude is a whole number of units, and one unit is `2 ^ -1074`.
def unitsPerOne : Nat := 1 <<< 1074

def unitsOf (m : Nat) : Nat :=
  if m < leadingBit then m else (leadingBit + m % leadingBit) <<< (m / leadingBit - 1)

def units (x : Binary64) : Nat := unitsOf x.magnitude

-- The whole number that `x` denotes, if it denotes one.
def toInt? (x : Binary64) : Option Int :=
  if x.isFinite ∧ x.units % unitsPerOne = 0 then
    let n := x.units / unitsPerOne
    some (if x.isNegative then -n else n)
  else none

-- Whether `x` is a number below zero. Neither zero is.
def isBelowZero (x : Binary64) : Bool := x.isNegative && !x.isNaN && x.magnitude != 0

-- The total order of the bit patterns: the negative ones in reverse, then the others.
def rank (x : Binary64) : Int := if x.isNegative then -1 - x.magnitude else x.magnitude

def compare (x y : Binary64) : Ordering := Ord.compare x.rank y.rank

end Binary64

end CallSuite
