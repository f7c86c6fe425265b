import CallSuite.Ordered
import CallSuite.Value.Basic

namespace CallSuite

-- A node has two domains: one whose values are all tried, and one that values are drawn from.
inductive Role where
  | exhaustive
  | random
deriving DecidableEq

def Role.name : Role → String
  | .exhaustive => "exhaustive"
  | .random => "random"

def Collection.name : Collection → String
  | .list => "list"
  | .tuple => "tuple"
  | .set => "set"

inductive Kind where
  | int
  | bool
  | float
  | str
  | collection (c : Collection)
  | dict
deriving DecidableEq

def Kind.name : Kind → String
  | .int => "int"
  | .bool => "bool"
  | .float => "float"
  | .str => "str"
  | .collection c => c.name
  | .dict => "dict"

-- The entries of a domain in the order they were given. There is always one to draw.
structure Domain (α : Type) where
  entries : Array α
  size_pos : 0 < entries.size

def Domain.ofList? (xs : List α) : Option (Domain α) :=
  if h : 0 < xs.toArray.size then some ⟨xs.toArray, h⟩ else none

def Domain.toList (d : Domain α) : List α := d.entries.toList

inductive SlotError where
  | alreadyAssigned (role : Role)
  | empty (role : Role)
deriving DecidableEq

def SlotError.message : SlotError → String
  | .alreadyAssigned role => s!"{role.name} domain already assigned"
  | .empty role => s!"{role.name} domain must not be empty"

-- The domains that a node has got so far.
structure Slots (α : Type) where
  exhaustive : Option (Domain α)
  random : Option (Domain α)

namespace Slots

def empty : Slots α := ⟨none, none⟩

def get (s : Slots α) : Role → Option (Domain α)
  | .exhaustive => s.exhaustive
  | .random => s.random

def set (s : Slots α) (d : Domain α) : Role → Slots α
  | .exhaustive => { s with exhaustive := some d }
  | .random => { s with random := some d }

-- A slot is filled once.
def assign (s : Slots α) (role : Role) (xs : List α) : Except SlotError (Slots α) :=
  match Domain.ofList? xs with
  | none => .error (.empty role)
  | some d => match s.get role with
    | some _ => .error (.alreadyAssigned role)
    | none => .ok (s.set d role)

end Slots

structure Domains (α : Type) where
  exhaustive : Domain α
  random : Domain α

def Domains.ofLists (exhaustive random : List α) : Except SlotError (Domains α) :=
  match Domain.ofList? exhaustive, Domain.ofList? random with
  | some e, some r => .ok ⟨e, r⟩
  | none, _ => .error (.empty .exhaustive)
  | _, none => .error (.empty .random)

-- The type of a parameter with what `δ` holds at each node. A number or a truth value is an entry
-- of its domain. A string, a collection or a dict has its length there.
inductive Tree (δ : Type → Type) where
  | int (values : δ Int)
  | bool (values : δ Bool)
  | float (values : δ Binary64)
  | str (alphabet : OrderedSet Char) (lengths : δ Nat)
  | collection (c : Collection) (sizes : δ Nat) (item : Tree δ)
  | dict (sizes : δ Nat) (key value : Tree δ)

def Tree.kind : Tree δ → Kind
  | .int _ => .int
  | .bool _ => .bool
  | .float _ => .float
  | .str _ _ => .str
  | .collection c _ _ => .collection c
  | .dict _ _ _ => .dict

-- A tree that still gets its domains, and one that has them all.
abbrev TypeTree := Tree Slots

abbrev Node := Tree Domains

end CallSuite
