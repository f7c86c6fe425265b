import CallSuite.Binary64.Literal
import CallSuite.Clause.Basic
import CallSuite.Distinct

namespace CallSuite

open CallSuite.Text

namespace Clause

-- Takes numbers and commas in turn up to the closing bracket. `numbers` are those behind, the last
-- one first, and a comma or the bracket is due after each of them.
def takeList (numbers : List Binary64) (commaDue : Bool) :
    List Item → Read (List Binary64 × List Item)
  | [] => .error ("[", .unmatchedBracket)
  | .delim ']' :: rest =>
    if commaDue then .ok (numbers.reverse, rest)
    else if numbers.isEmpty then .error ("[]", .emptyList)
    else .error (",]", .trailingComma)
  | .values xs :: _ => .error ((Item.values xs).text, .nestedList)
  | .delim c :: rest =>
    if !commaDue then .error (c.toString, .malformedNumber)
    else if c = ',' then takeList numbers false rest
    else .error (c.toString, .expectedComma)
  | .number s :: rest =>
    if commaDue then .error (s, .expectedComma)
    else match Binary64.read? s.toList with
      | some x => takeList (x :: numbers) true rest
      | none => .error (s, .malformedNumber)

-- Both bounds belong to the range. A bound beyond `2 ^ 53` in absolute value is rounded.
def rangeValues (lo hi : Int) : List Binary64 :=
  (List.range (hi - lo + 1).toNat).map fun (n : Nat) => Binary64.ofInt (lo + n)

-- The upper bound is what follows the sign of the range.
def takeRange (lo : String) : List Item → Read (List Binary64 × List Item)
  | [] => .error (s!"{lo}~", .tooFewClauses)
  | .number hi :: rest =>
    let token := s!"{lo}~{hi}"
    match readInt64? lo.toList, readInt64? hi.toList with
    | some a, some b =>
      if b < a then .error (token, .invertedRange a b)
      else if maxRangeLength < b - a + 1 then .error (token, .rangeTooLarge a b)
      else .ok (rangeValues a b, rest)
    | _, _ => .error (token, .nonIntegerRange)
  | other :: _ => .error (s!"{lo}~{other.text}", .nonIntegerRange)

-- Reads one more token to the left of `items`.
def pushToken : Token → List Item → Read (List Item)
  | .delim '[', items => do
    let (xs, rest) ← takeList [] false items
    return .values (distinct xs) :: rest
  | .delim c, items => .ok (.delim c :: items)
  | .word w, .delim '~' :: items => do
    let (xs, rest) ← takeRange w items
    return .values xs :: rest
  | .word w, items => .ok (.number w :: items)

def itemsOf (tokens : List Token) : Read (List Item) := tokens.foldrM pushToken []

def tokens (text : String) : List Token := Token.split ['(', ':', '[', ']', ',', '~'] text.toList

end Clause

end CallSuite
