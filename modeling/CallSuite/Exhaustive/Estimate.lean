import CallSuite.Tree.Basic

namespace CallSuite

namespace Estimate

-- Counts have 128 bits, and a greater number is written as the greatest count.
def limit : Nat := 0xffffffffffffffffffffffffffffffff

def add (a b : Nat) : Nat := min (a + b) limit

def mul (a b : Nat) : Nat := min (a * b) limit

def sumOver (ns : List Nat) (f : Nat → Nat) : Nat := ns.foldl (fun total n => add total (f n)) 0

def power (base n : Nat) : Nat := Nat.repeat (mul · base) n 1

-- Each factor is multiplied in and its divisor divided out before the next one.
def binomial (n k : Nat) : Nat :=
  if n < k then 0 else Nat.fold (min k (n - k)) (fun i _ c => mul c (n - i) / (i + 1)) 1

end Estimate

-- The number of exhaustive values of a node whose domains repeat no entry.
def Tree.estimate : Node → Nat
  | .int d => d.exhaustive.entries.size
  | .bool d => d.exhaustive.entries.size
  | .float d => d.exhaustive.entries.size
  | .str alphabet d => Estimate.sumOver d.exhaustive.toList (Estimate.power alphabet.size)
  | .collection .set d item =>
    Estimate.sumOver d.exhaustive.toList (Estimate.binomial item.estimate)
  | .collection _ d item => Estimate.sumOver d.exhaustive.toList (Estimate.power item.estimate)
  | .dict d key value =>
    let keys := key.estimate
    let values := value.estimate
    Estimate.sumOver d.exhaustive.toList fun n =>
      Estimate.mul (Estimate.binomial keys n) (Estimate.power values n)

def estimateSuite (params : List Node) : Nat :=
  params.foldl (fun count node => Estimate.mul count node.estimate) 1

end CallSuite
