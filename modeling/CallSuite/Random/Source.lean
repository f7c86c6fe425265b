namespace CallSuite

-- What choices are drawn from: a draw among `n` gives one of them and what later draws come from.
class IndexSource (σ : Type) where
  draw : (n : Nat) → 0 < n → σ → Fin n × σ

def drawFrom [IndexSource σ] (xs : Array α) (h : 0 < xs.size) (s : σ) : α × σ :=
  let (i, s) := IndexSource.draw xs.size h s
  (xs[i], s)

-- `done` are the results so far, the last one first.
def timesFrom (step : σ → α × σ) (done : List α) : Nat → σ → List α × σ
  | 0, s => (done.reverse, s)
  | n + 1, s =>
    let (x, s) := step s
    timesFrom step (x :: done) n s

-- The results of `n` steps in a row.
def times (n : Nat) (step : σ → α × σ) (s : σ) : List α × σ := timesFrom step [] n s

theorem timesFrom_eq (step : σ → α × σ) (done : List α) (n : Nat) (s : σ) :
    timesFrom step done n s = (done.reverse ++ (times n step s).1, (times n step s).2) := by
  induction n generalizing done s with
  | zero => simp [times, timesFrom]
  | succ n ih =>
      simp only [times, timesFrom]
      rw [ih, ih [(step s).1]]
      simp

theorem times_zero (step : σ → α × σ) (s : σ) : times 0 step s = ([], s) := rfl

theorem times_succ (n : Nat) (step : σ → α × σ) (s : σ) :
    times (n + 1) step s =
      ((step s).1 :: (times n step (step s).2).1, (times n step (step s).2).2) := by
  change timesFrom step [(step s).1] n (step s).2 = _
  rw [timesFrom_eq]
  rfl

end CallSuite
