import CallSuite.Clause.Entry
import CallSuite.Clause.OfTokens

namespace CallSuite

structure DomainError where
  text : String
  role : Role
  token : String
  fault : DomainFault
deriving DecidableEq

def DomainError.message (e : DomainError) : String :=
  s!"Invalid {e.role.name} domain '{e.text}': {e.fault.message} at '{e.token}'"

namespace Clause

-- Gives a node the first item, which has to be a clause, each of whose values has to be an entry.
def fill (role : Role) (kind : Kind) (entries : List Binary64 → Except DomainFault (List α))
    (slots : Slots α) : List Item → Read (Slots α × List Item)
  | [] => .error ("", .tooFewClauses)
  | .values xs :: rest => do
    let ys ← (entries xs).mapError fun e => ((Item.values xs).text, e)
    let slots ← (slots.assign role ys).mapError fun e => ((Item.values xs).text, .slot e)
    return (slots, rest)
  | other :: _ => .error (other.text, .expectedDomain kind)

-- Values that differ may be the same entry, as both zeros are.
def fillDistinct [BEq α] [Hashable α] (role : Role) (kind : Kind)
    (entry : Binary64 → Except DomainFault α) (slots : Slots α) (items : List Item) :
    Read (Slots α × List Item) :=
  fill role kind (fun xs => distinct <$> xs.mapM entry) slots items

def fillSizes (role : Role) (kind : Kind) (slots : Slots Nat) (items : List Item) :
    Read (Slots Nat × List Item) :=
  fillDistinct role kind (sizeEntry kind) slots items

def takeDelim (expected : Char) : List Item → Read (List Item)
  | [] => .error ("", .tooFewClauses)
  | .delim c :: rest =>
    if c = expected then .ok rest else .error (c.toString, .expectedDelimiter expected)
  | other :: _ => .error (other.text, .expectedDelimiter expected)

-- Goes through the nodes from the root, a key before its value, and gives each the next clause.
-- What was filled before an error stays filled.
def align (role : Role) : TypeTree → List Item → TypeTree × Read (List Item)
  | .int s, items => match fillDistinct role .int intEntry s items with
    | .ok (s, rest) => (.int s, .ok rest)
    | .error e => (.int s, .error e)
  | .bool s, items => match fillDistinct role .bool boolEntry s items with
    | .ok (s, rest) => (.bool s, .ok rest)
    | .error e => (.bool s, .error e)
  | .float s, items => match fill role .float .ok s items with
    | .ok (s, rest) => (.float s, .ok rest)
    | .error e => (.float s, .error e)
  | .str alphabet s, items => match fillSizes role .str s items with
    | .ok (s, rest) => (.str alphabet s, .ok rest)
    | .error e => (.str alphabet s, .error e)
  | .collection c s item, items => match fillSizes role (.collection c) s items with
    | .error e => (.collection c s item, .error e)
    | .ok (s, rest) => match takeDelim '(' rest with
      | .error e => (.collection c s item, .error e)
      | .ok rest =>
        let (item, outcome) := align role item rest
        (.collection c s item, outcome)
  | .dict s key value, items => match fillSizes role .dict s items with
    | .error e => (.dict s key value, .error e)
    | .ok (s, rest) => match takeDelim '(' rest with
      | .error e => (.dict s key value, .error e)
      | .ok rest => match align role key rest with
        | (key, .error e) => (.dict s key value, .error e)
        | (key, .ok rest) => match takeDelim ':' rest with
          | .error e => (.dict s key value, .error e)
          | .ok rest =>
            let (value, outcome) := align role value rest
            (.dict s key value, outcome)

def finish : List Item → Read Unit
  | [] => .ok ()
  | top :: _ => .error (top.text, .tooManyClauses)

end Clause

namespace TypeTree

open Clause

-- Gives every node the domain that `text` describes for it. The tree is returned in any case.
def decorate (tree : TypeTree) (role : Role) (text : String) :
    TypeTree × Except DomainError Unit :=
  let located (outcome : Read Unit) : Except DomainError Unit :=
    outcome.mapError fun (token, fault) => ⟨text, role, token, fault⟩
  match itemsOf (tokens text) with
  | .error e => (tree, located (.error e))
  | .ok items =>
    let (tree, outcome) := align role tree items
    (tree, located (outcome >>= finish))

end TypeTree

end CallSuite
