import CallSuite.Binary64.Layout
import CallSuite.Text.Token
import CallSuite.Tree.Basic

namespace CallSuite

-- The most values a range may have, and the greatest length a domain may name.
def maxRangeLength : Nat := 1048576

inductive DomainFault where
  | malformedNumber
  | expectedComma
  | trailingComma
  | emptyList
  | unmatchedBracket
  | nestedList
  | nonIntegerRange
  | invertedRange (lo hi : Int)
  | rangeTooLarge (lo hi : Int)
  | expectedDomain (kind : Kind)
  | expectedDelimiter (expected : Char)
  | invalidBool (value : Binary64)
  | notIntegral (kind : Kind) (value : Binary64)
  | negativeSize (kind : Kind) (value : Binary64)
  | sizeTooLarge (kind : Kind) (value : Binary64)
  | tooFewClauses
  | tooManyClauses
  | slot (error : SlotError)
deriving DecidableEq

def DomainFault.message : DomainFault → String
  | .malformedNumber => "could not parse number"
  | .expectedComma => "expected ','"
  | .trailingComma => "trailing ',' in list"
  | .emptyList => "list is empty"
  | .unmatchedBracket => "'[' has no matching ']'"
  | .nestedList => "nested domain inside a list"
  | .nonIntegerRange => "range bounds must be integers"
  | .invertedRange lo hi => s!"range {lo}~{hi} has lower bound above upper bound"
  | .rangeTooLarge lo hi => s!"range {lo}~{hi} expands to more than {maxRangeLength} values"
  | .expectedDomain kind => s!"expected a domain for {kind.name}"
  | .expectedDelimiter c => s!"expected '{c}'"
  | .invalidBool x => s!"bool domain values must be 0 or 1, found {x.plain}"
  | .notIntegral kind x => s!"{kind.name} domain values must be integers, found {x.plain}"
  | .negativeSize kind x => s!"{kind.name} sizes must be non-negative, found {x.plain}"
  | .sizeTooLarge kind x => s!"{kind.name} sizes must be at most {maxRangeLength}, found {x.plain}"
  | .tooFewClauses => "not enough domain clauses for the type"
  | .tooManyClauses => "unattributed domain clauses or redundant delimiters"
  | .slot e => e.message

namespace Clause

-- What the tokens of a domain descriptor are read to. A list or a range is one item with its
-- values.
inductive Item where
  | delim (c : Char)
  | number (s : String)
  | values (xs : List Binary64)
deriving DecidableEq

def Item.text : Item → String
  | .delim c => c.toString
  | .number s => s
  | .values xs => "[" ++ ", ".intercalate (xs.map Binary64.plain) ++ "]"

abbrev Read := Except (String × DomainFault)

end Clause

end CallSuite
