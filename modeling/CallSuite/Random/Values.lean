import CallSuite.Random.Generator
import CallSuite.Tree.Basic
import CallSuite.Value.Text

namespace CallSuite

def Domain.draw [IndexSource σ] (d : Domain α) (s : σ) : α × σ := drawFrom d.entries d.size_pos s

-- No character can be drawn from the empty alphabet, and then none is.
def drawString [IndexSource σ] (alphabet : List Char) (n : Nat) (s : σ) : String × σ :=
  let chars := alphabet.toArray
  if h : 0 < chars.size then
    let (cs, s) := times n (drawFrom chars h) s
    (String.ofList cs, s)
  else ("", s)

-- A value drawn from the random domains of a node. The length comes first, then the members one by
-- one, a key before its value. Equal members of a set, or equal keys of a dict, are drawn as often
-- as they come up, and count once.
def Tree.randomValue [IndexSource σ] : Node → σ → Value × σ
  | .int d, s =>
    let (i, s) := d.random.draw s
    (.int i, s)
  | .bool d, s =>
    let (b, s) := d.random.draw s
    (.bool b, s)
  | .float d, s =>
    let (x, s) := d.random.draw s
    (.float x, s)
  | .str alphabet d, s =>
    let (n, s) := d.random.draw s
    let (text, s) := drawString alphabet.toList n s
    (.str text, s)
  | .collection c d item, s =>
    let (n, s) := d.random.draw s
    let (items, s) := times n item.randomValue s
    (.ofItems c items, s)
  | .dict d key value, s =>
    let (n, s) := d.random.draw s
    let entry (s : σ) : (Value × Value) × σ :=
      let (k, s) := key.randomValue s
      let (v, s) := value.randomValue s
      ((k, v), s)
    let (entries, s) := times n entry s
    (.dictOf entries, s)

-- Random cases without end. Each parameter draws from a source of its own.
structure CaseStream (σ : Type) where
  columns : List (Node × σ)

namespace CaseStream

-- The parameter at place `i` draws from the source of that place.
def ofSources (params : List Node) (source : Nat → σ) : CaseStream σ :=
  ⟨params.mapIdx fun i node => (node, source i)⟩

-- The source of place `i` is stream `i` of the seed.
def ofSeed (params : List Node) (seed : UInt64) : CaseStream Generator :=
  ofSources params fun i => .ofSeed seed (UInt64.ofNat i)

def next [IndexSource σ] (s : CaseStream σ) : TestCase × CaseStream σ :=
  let drawn := s.columns.map fun (node, s) => (node, node.randomValue s)
  (⟨drawn.map (·.2.1)⟩, ⟨drawn.map fun (node, _, s) => (node, s)⟩)

def take [IndexSource σ] (n : Nat) (s : CaseStream σ) : List TestCase × CaseStream σ :=
  times n next s

end CaseStream

def randomSuite (params : List Node) (n : Nat) (seed : UInt64) : List TestCase :=
  ((CaseStream.ofSeed params seed).take n).1

end CallSuite
