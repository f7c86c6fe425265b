import CallSuite.Random.ChaCha
import CallSuite.Random.Source

namespace CallSuite

open CallSuite.ChaCha

-- One stream of a seed. `ready` are the numbers of the last block that are still to come.
structure Generator where
  key : Key
  stream : UInt64
  counter : UInt64
  ready : List UInt64

namespace Generator

-- The streams of one seed differ in their number alone.
def ofSeed (seed stream : UInt64) : Generator := ⟨.ofSeed seed, stream, 0, []⟩

def next (g : Generator) : UInt64 × Generator :=
  match g.ready with
  | x :: ready => (x, { g with ready })
  | [] =>
    let (x, ready) := block g.key g.stream g.counter
    (x, { g with counter := g.counter + 1, ready })

-- The numbers whose product with `n` ends in more than this are drawn again. What is left falls to
-- the `n` choices in equal shares.
def acceptance (n : Nat) : Nat := n <<< (63 - n.log2) - 1

def index (n : Nat) (h : 0 < n) : (fuel : Nat) → Generator → Fin n × Generator
  | 0, g => (⟨0, h⟩, g)
  | fuel + 1, g =>
    let (x, g) := g.next
    let scaled := x.toNat * n
    if scaled % 0x10000000000000000 ≤ acceptance n then
      have hlt : scaled / 0x10000000000000000 < n :=
        Nat.div_lt_of_lt_mul ((Nat.mul_lt_mul_right h).mpr x.toNat_lt)
      (⟨scaled / 0x10000000000000000, hlt⟩, g)
    else index n h fuel g

-- The numbers of a stream repeat after this many.
def period : Nat := 1 <<< 67

instance : IndexSource Generator where
  draw n h g := index n h period g

end Generator

end CallSuite
