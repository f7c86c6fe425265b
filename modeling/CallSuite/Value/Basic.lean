import CallSuite.Binary64.Basic
import CallSuite.Ordered

namespace CallSuite

-- The collections whose members are all of one type.
inductive Collection where
  | list
  | tuple
  | set
deriving DecidableEq

-- An argument of a call. The members of a set ascend, and so do the keys of a dict.
inductive Value where
  | bool (b : Bool)
  | int (i : Int)
  | float (x : Binary64)
  | str (s : String)
  | collection (c : Collection) (items : List Value)
  | dict (entries : List (Value × Value))

namespace Value

-- Values of different kinds are ordered by kind.
def rank : Value → Nat
  | .bool _ => 0
  | .int _ => 1
  | .float _ => 2
  | .str _ => 3
  | .collection .list _ => 4
  | .collection .tuple _ => 5
  | .collection .set _ => 6
  | .dict _ => 7

-- Values of one kind are ordered by content, sequences of contents lexicographically.
mutual

def compare : Value → Value → Ordering
  | .bool a, .bool b => Ord.compare a b
  | .int a, .int b => Ord.compare a b
  | .float a, .float b => a.compare b
  | .str a, .str b => Ord.compare a b
  | .collection c xs, .collection d ys =>
    if c = d then compareItems xs ys
    else Ord.compare (rank (.collection c xs)) (rank (.collection d ys))
  | .dict xs, .dict ys => compareEntries xs ys
  | a, b => Ord.compare a.rank b.rank

def compareItems : List Value → List Value → Ordering
  | [], [] => .eq
  | [], _ :: _ => .lt
  | _ :: _, [] => .gt
  | x :: xs, y :: ys => match compare x y with
    | .eq => compareItems xs ys
    | o => o

def compareEntries : List (Value × Value) → List (Value × Value) → Ordering
  | [], [] => .eq
  | [], _ :: _ => .lt
  | _ :: _, [] => .gt
  | (k, v) :: xs, (l, w) :: ys => match compare k l with
    | .eq => match compare v w with
      | .eq => compareEntries xs ys
      | o => o
    | o => o

end

-- A set holds each of its members once.
def setOf (items : List Value) : Value := .collection .set (sortDistinct compare items)

-- A dict holds each of its keys once, with the value that came last.
def dictOf (entries : List (Value × Value)) : Value :=
  .dict (sortDistinct (fun a b => compare a.1 b.1) entries)

def ofItems : Collection → List Value → Value
  | .set, items => setOf items
  | c, items => .collection c items

-- Only strings and collections have a length.
def length? : Value → Option Nat
  | .str s => some s.length
  | .collection _ items => some items.length
  | .dict entries => some entries.length
  | _ => none

end Value

end CallSuite
