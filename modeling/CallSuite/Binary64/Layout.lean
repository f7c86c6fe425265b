import CallSuite.Binary64.Shortest

namespace CallSuite

namespace Decimal

def digitChars (d : Decimal) : List Char := Nat.toDigits 10 d.digits

-- The power of ten of the leading digit.
def place (d : Decimal) : Int := d.exponent + (d.digitChars.length - 1 : Nat)

-- Zeros fill the places between the digits and the point.
def positional (d : Decimal) : List Char :=
  match d.exponent with
  | .ofNat e => d.digitChars ++ List.replicate e '0'
  | .negSucc e =>
    let ds := List.replicate (e + 2 - d.digitChars.length) '0' ++ d.digitChars
    ds.take (ds.length - (e + 1)) ++ '.' :: ds.drop (ds.length - (e + 1))

-- As `positional`, and a whole number ends in `.0`.
def pointed (d : Decimal) : List Char :=
  if d.exponent < 0 then d.positional else d.positional ++ ['.', '0']

-- One digit in front of the point.
def mantissa (d : Decimal) : List Char :=
  match d.digitChars with
  | c :: c' :: cs => c :: '.' :: c' :: cs
  | cs => cs

-- The sign is always written, and at least `width` digits.
def exponentText (width : Nat) (e : Int) : List Char :=
  let ds := Nat.toDigits 10 e.natAbs
  (if e < 0 then '-' else '+') :: List.replicate (width - ds.length) '0' ++ ds

def scientific (width : Nat) (d : Decimal) : List Char :=
  d.mantissa ++ 'e' :: exponentText width d.place

end Decimal

namespace Binary64

def signed (x : Binary64) (cs : List Char) : String :=
  String.ofList (if x.isNegative then '-' :: cs else cs)

-- Always positional, and a whole number has no point.
def plain (x : Binary64) : String :=
  if x.isNaN then "NaN"
  else if !x.isFinite then x.signed ['i', 'n', 'f']
  else x.signed (shortest .up x.magnitude).positional

-- A literal of Python: positional from `1e-4` up to `1e16`, where a whole number is written
-- exactly.
def literal (x : Binary64) : String :=
  if x.isNaN then "nan"
  else if !x.isFinite then x.signed ['i', 'n', 'f']
  else if x.magnitude ≠ 0 ∧
      (x.magnitude < roundDecimal 1 (-4) ∨ roundDecimal 1 16 ≤ x.magnitude) then
    x.signed ((shortest .up x.magnitude).scientific 2)
  else match x.toInt? with
    | some i => x.signed (Nat.toDigits 10 i.natAbs ++ ['.', '0'])
    | none => x.signed (shortest .up x.magnitude).pointed

-- A number of a JSON text: positional while the leading digit stands between `10 ^ -5` and
-- `10 ^ 15`.
def json (x : Binary64) : String :=
  let d := shortest .even x.magnitude
  x.signed (if -5 ≤ d.place ∧ d.place ≤ 15 then d.pointed else d.scientific 0)

end Binary64

end CallSuite
