import CallSuite.Binary64.Rounding
import CallSuite.Text.Basic

namespace CallSuite.Binary64

open CallSuite.Text

-- What follows the digits: nothing, or `e` and a whole number.
def readExponent? : List Char → Option Int
  | [] => some 0
  | e :: cs => if e = 'e' ∨ e = 'E' then readInt? cs else none

-- Digits with at most one point among them, at least one digit, and an exponent.
def readDecimal? (cs : List Char) : Option (Nat × Int) := do
  let whole := cs.takeWhile Char.isDigit
  let (fraction, rest) := match cs.dropWhile Char.isDigit with
    | '.' :: rest => (rest.takeWhile Char.isDigit, rest.dropWhile Char.isDigit)
    | rest => ([], rest)
  if whole = [] ∧ fraction = [] then none
  else
    let exponent ← readExponent? rest
    some (natOfDigits (whole ++ fraction), exponent - fraction.length)

def quietNaN : Nat := infinity + 0x8000000000000

def readMagnitude? (cs : List Char) : Option Nat :=
  match String.ofList (cs.map Char.toLower) with
  | "inf" | "infinity" => some infinity
  | "nan" => some quietNaN
  | _ => (readDecimal? cs).map fun (digits, exponent) => roundDecimal digits exponent

-- The number nearest to what the literal denotes.
def read? (cs : List Char) : Option Binary64 :=
  let (negative, rest) := splitSign cs
  (readMagnitude? rest).map (ofMagnitude negative)

end CallSuite.Binary64
