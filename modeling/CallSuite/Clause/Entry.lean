import CallSuite.Clause.Basic
import CallSuite.Text.Basic

namespace CallSuite

open CallSuite.Text

-- How a value of a clause is read at a node of each kind. None of these rounds.
namespace Clause

def boolEntry (x : Binary64) : Except DomainFault Bool :=
  match x.toInt? with
  | some 0 => .ok false
  | some 1 => .ok true
  | _ => .error (.invalidBool x)

def intEntry (x : Binary64) : Except DomainFault Int :=
  match x.toInt? with
  | some i => if IsInt64 i then .ok i else .error (.notIntegral .int x)
  | none => .error (.notIntegral .int x)

def sizeEntry (kind : Kind) (x : Binary64) : Except DomainFault Nat :=
  if x.isBelowZero then .error (.negativeSize kind x)
  else match x.toInt? with
    | none => .error (.notIntegral kind x)
    | some i =>
      if maxRangeLength < i then .error (.sizeTooLarge kind x) else .ok i.toNat

end Clause

end CallSuite
