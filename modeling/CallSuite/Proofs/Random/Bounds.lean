import CallSuite.Random.Values

namespace CallSuite

variable {σ α : Type} [IndexSource σ]

-- Draws with bare indices. None is drawn where there is nothing to choose from, and one that is
-- drawn has to name a place.
def indexBelow? (n : Nat) (s : σ) : Option (Nat × σ) :=
  if h : 0 < n then
    let (i, s) := IndexSource.draw n h s
    some (i.val, s)
  else none

def drawFrom? (xs : Array α) (s : σ) : Option (α × σ) := do
  let (i, s) ← indexBelow? xs.size s
  let x ← xs[i]?
  return (x, s)

def times? (n : Nat) (step : σ → Option (α × σ)) (s : σ) : Option (List α × σ) :=
  match n with
  | 0 => some ([], s)
  | n + 1 => do
    let (x, s) ← step s
    let (xs, s) ← times? n step s
    return (x :: xs, s)

def drawString? (alphabet : List Char) (n : Nat) (s : σ) : Option (String × σ) :=
  if alphabet.isEmpty then some ("", s)
  else do
    let (cs, s) ← times? n (drawFrom? alphabet.toArray) s
    return (String.ofList cs, s)

-- A value drawn with bare indices. It fails as soon as one of them is outside.
def Tree.randomValue? : Node → σ → Option (Value × σ)
  | .int d, s => do
    let (i, s) ← drawFrom? d.random.entries s
    return (.int i, s)
  | .bool d, s => do
    let (b, s) ← drawFrom? d.random.entries s
    return (.bool b, s)
  | .float d, s => do
    let (x, s) ← drawFrom? d.random.entries s
    return (.float x, s)
  | .str alphabet d, s => do
    let (n, s) ← drawFrom? d.random.entries s
    let (text, s) ← drawString? alphabet.toList n s
    return (.str text, s)
  | .collection c d item, s => do
    let (n, s) ← drawFrom? d.random.entries s
    let (items, s) ← times? n item.randomValue? s
    return (.ofItems c items, s)
  | .dict d key value, s => do
    let (n, s) ← drawFrom? d.random.entries s
    let entry (s : σ) : Option ((Value × Value) × σ) := do
      let (k, s) ← key.randomValue? s
      let (v, s) ← value.randomValue? s
      return ((k, v), s)
    let (entries, s) ← times? n entry s
    return (.dictOf entries, s)

theorem drawFrom?_eq_some (xs : Array α) (h : 0 < xs.size) (s : σ) :
    drawFrom? xs s = some (drawFrom xs h s) := by
  simp [drawFrom?, indexBelow?, h, drawFrom]

theorem Domain.drawFrom?_entries (d : Domain α) (s : σ) :
    drawFrom? d.entries s = some (d.draw s) :=
  drawFrom?_eq_some d.entries d.size_pos s

omit [IndexSource σ] in
theorem times?_eq_some {step? : σ → Option (α × σ)} {step : σ → α × σ}
    (h : ∀ s, step? s = some (step s)) (n : Nat) (s : σ) :
    times? n step? s = some (times n step s) := by
  induction n generalizing s with
  | zero => rfl
  | succ n ih => simp [times?, h, ih, times_succ]

theorem drawString?_eq_some (alphabet : List Char) (n : Nat) (s : σ) :
    drawString? alphabet n s = some (drawString alphabet n s) := by
  cases alphabet with
  | nil => rfl
  | cons c cs =>
      have hsize : 0 < (c :: cs).toArray.size := Nat.succ_pos _
      have htimes := times?_eq_some (drawFrom?_eq_some (c :: cs).toArray hsize) n s
      simp only [drawString?, drawString, dif_pos hsize, htimes]
      rfl

-- Every index that a value is drawn with names a place.
theorem Tree.randomValue?_eq_some (node : Node) (s : σ) :
    node.randomValue? s = some (node.randomValue s) := by
  induction node generalizing s with
  | int d | bool d | float d => simp [randomValue?, randomValue, Domain.drawFrom?_entries]
  | str alphabet d =>
      simp [randomValue?, randomValue, Domain.drawFrom?_entries, drawString?_eq_some]
  | collection c d item ih =>
      simp [randomValue?, randomValue, Domain.drawFrom?_entries, times?_eq_some ih]
  | dict d key value ihk ihv =>
      simp only [randomValue?, randomValue, Domain.drawFrom?_entries, Option.bind_eq_bind,
        Option.bind_some]
      rw [times?_eq_some fun s => by rw [ihk, Option.bind_some, ihv, Option.bind_some]; rfl]
      rfl

end CallSuite
