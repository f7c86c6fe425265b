namespace CallSuite

-- Each of `xs` in front of each of `rows`, in the order of `xs`.
def prependEach (xs : List α) (rows : List (List α)) : List (List α) :=
  xs.flatMap fun x => rows.map (x :: ·)

-- The rows of `n` entries of `xs`. The last place varies fastest. Without entries there is no row
-- to build, however great `n` is.
def power (xs : List α) (n : Nat) : List (List α) :=
  if xs.isEmpty ∧ 0 < n then [] else Nat.repeat (prependEach xs) n [[]]

theorem power_zero (xs : List α) : power xs 0 = [[]] := by
  rw [power, if_neg (by simp)]
  rfl

theorem power_succ (xs : List α) (n : Nat) : power xs (n + 1) = prependEach xs (power xs n) := by
  cases xs with
  | nil => simp [power, prependEach]
  | cons x xs =>
      have h (m : Nat) : ¬((x :: xs).isEmpty = true ∧ 0 < m) := by simp
      rw [power, power, if_neg (h _), if_neg (h _)]
      rfl

-- Puts the rows that take `k` more entries in front of `rows`, the first of them deepest. `taken`
-- are the entries taken so far, the last one first, and `spare` entries may be left out.
def pickInto (taken : List α) (k spare : Nat) (xs : List α) (rows : List (List α)) :
    List (List α) :=
  match k, xs with
  | 0, _ => taken.reverse :: rows
  | _ + 1, [] => rows
  | k + 1, x :: xs =>
    let rows := pickInto (x :: taken) k spare xs rows
    match spare with
    | 0 => rows
    | spare + 1 => pickInto taken (k + 1) spare xs rows

-- The choices of `k` places of `xs` in lexicographic order, each row in the order of `xs`.
def combinations (xs : List α) (k : Nat) : List (List α) :=
  if k ≤ xs.length then (pickInto [] k (xs.length - k) xs []).reverse else []

-- The rows with one entry of each set. The last set varies fastest.
def product (sets : List (List α)) : List (List α) :=
  sets.foldl (fun rows set => rows.flatMap fun row => set.map fun x => row ++ [x]) [[]]

end CallSuite
