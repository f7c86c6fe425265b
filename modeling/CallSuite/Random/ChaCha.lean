namespace CallSuite.ChaCha

-- The state is four rows of four words, and a step of a round works on whole rows.
structure Row where
  a : UInt32
  b : UInt32
  c : UInt32
  d : UInt32

namespace Row

def add (x y : Row) : Row := ⟨x.a + y.a, x.b + y.b, x.c + y.c, x.d + y.d⟩

def rotateWord (n w : UInt32) : UInt32 := (w <<< n) ||| (w >>> (32 - n))

-- The exclusive or of two rows, and each of its words rotated to the left.
def mix (n : UInt32) (x y : Row) : Row :=
  ⟨rotateWord n (x.a ^^^ y.a), rotateWord n (x.b ^^^ y.b), rotateWord n (x.c ^^^ y.c),
    rotateWord n (x.d ^^^ y.d)⟩

def shift1 (x : Row) : Row := ⟨x.b, x.c, x.d, x.a⟩

def shift2 (x : Row) : Row := ⟨x.c, x.d, x.a, x.b⟩

def shift3 (x : Row) : Row := ⟨x.d, x.a, x.b, x.c⟩

-- Two words in succession make one number, the first one its low half.
def low (x : Row) : UInt64 := x.a.toUInt64 ||| (x.b.toUInt64 <<< 32)

def high (x : Row) : UInt64 := x.c.toUInt64 ||| (x.d.toUInt64 <<< 32)

def ofNumbers (low high : UInt64) : Row :=
  ⟨low.toUInt32, (low >>> 32).toUInt32, high.toUInt32, (high >>> 32).toUInt32⟩

end Row

structure State where
  r0 : Row
  r1 : Row
  r2 : Row
  r3 : Row

namespace State

-- A round on the four columns at once.
def columns (s : State) : State :=
  let a := s.r0.add s.r1
  let d := s.r3.mix 16 a
  let c := s.r2.add d
  let b := s.r1.mix 12 c
  let a := a.add b
  let d := d.mix 8 a
  let c := c.add d
  let b := b.mix 7 c
  ⟨a, b, c, d⟩

-- Shifting the rows turns the diagonals into columns, and shifting on turns them back.
def doubleRound (s : State) : State :=
  let s := s.columns
  let s := (State.mk s.r0 s.r1.shift1 s.r2.shift2 s.r3.shift3).columns
  ⟨s.r0, s.r1.shift3, s.r2.shift2, s.r3.shift1⟩

def add (s t : State) : State :=
  ⟨s.r0.add t.r0, s.r1.add t.r1, s.r2.add t.r2, s.r3.add t.r3⟩

end State

structure Key where
  low : Row
  high : Row

def State.ofBlock (key : Key) (stream counter : UInt64) : State :=
  ⟨⟨0x61707865, 0x3320646e, 0x79622d32, 0x6b206574⟩, key.low, key.high, .ofNumbers counter stream⟩

-- Eight rounds on the constants, the key, and the places of the block and of the stream. The first
-- number of the block stands apart from those that follow.
def block (key : Key) (stream counter : UInt64) : UInt64 × List UInt64 :=
  let start := State.ofBlock key stream counter
  let s := start.doubleRound.doubleRound.doubleRound.doubleRound.add start
  (s.r0.low, [s.r0.high, s.r1.low, s.r1.high, s.r2.low, s.r2.high, s.r3.low, s.r3.high])

-- A linear congruential step, and a word of its high bits rotated by the highest ones.
def expandSeed (state : UInt64) : UInt32 × UInt64 :=
  let state := state * 6364136223846793005 + 11634580027462260723
  let word := (((state >>> 18) ^^^ state) >>> 27).toUInt32
  let turn := (state >>> 59).toUInt32
  (Row.rotateWord ((32 - turn) % 32) word, state)

def Key.ofSeed (seed : UInt64) : Key :=
  let (a, s) := expandSeed seed
  let (b, s) := expandSeed s
  let (c, s) := expandSeed s
  let (d, s) := expandSeed s
  let (e, s) := expandSeed s
  let (f, s) := expandSeed s
  let (g, s) := expandSeed s
  let (h, _) := expandSeed s
  ⟨⟨a, b, c, d⟩, ⟨e, f, g, h⟩⟩

end CallSuite.ChaCha
