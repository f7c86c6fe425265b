namespace CallSuite

theorem bind_eq_ok {x : Except ε α} {f : α → Except ε β} {b : β} :
    x >>= f = .ok b ↔ ∃ a, x = .ok a ∧ f a = .ok b := by
  cases x with
  | error e =>
      constructor
      · intro h
        cases h
      · rintro ⟨_, h, _⟩
        cases h
  | ok a =>
      constructor
      · exact fun h => ⟨a, rfl, h⟩
      · rintro ⟨_, h, hf⟩
        cases h
        exact hf

theorem bind_eq_error {x : Except ε α} {f : α → Except ε β} {e : ε} :
    x >>= f = .error e ↔ x = .error e ∨ ∃ a, x = .ok a ∧ f a = .error e := by
  cases x with
  | error e' =>
      constructor
      · intro h
        cases h
        exact .inl rfl
      · rintro (h | ⟨_, h, _⟩)
        · cases h
          rfl
        · cases h
  | ok a =>
      constructor
      · exact fun h => .inr ⟨a, rfl, h⟩
      · rintro (h | ⟨_, h, hf⟩)
        · cases h
        · cases h
          exact hf

theorem bind_congr_of_eq_ok {x : Except ε α} {f g : α → Except ε β}
    (h : ∀ a, x = .ok a → f a = g a) : x >>= f = x >>= g := by
  cases x with
  | error e => rfl
  | ok a => exact h a rfl

theorem map_eq_ok {x : Except ε α} {f : α → β} {b : β} :
    f <$> x = .ok b ↔ ∃ a, x = .ok a ∧ f a = b := by
  cases x with
  | error e =>
      constructor
      · intro h
        cases h
      · rintro ⟨_, h, _⟩
        cases h
  | ok a =>
      constructor
      · intro h
        cases h
        exact ⟨a, rfl, rfl⟩
      · rintro ⟨_, h, rfl⟩
        cases h
        rfl

theorem map_eq_error {x : Except ε α} {f : α → β} {e : ε} : f <$> x = .error e ↔ x = .error e := by
  cases x <;> simp [Functor.map, Except.map]

theorem mapError_eq_ok {x : Except ε α} {f : ε → δ} {a : α} : x.mapError f = .ok a ↔ x = .ok a := by
  cases x with
  | error e => constructor <;> (intro h; cases h)
  | ok a => constructor <;> (intro h; cases h; rfl)

theorem mapError_eq_error {x : Except ε α} {f : ε → δ} {e : δ} :
    x.mapError f = .error e ↔ ∃ e', x = .error e' ∧ f e' = e := by
  cases x with
  | error e' =>
      constructor
      · intro h
        cases h
        exact ⟨e', rfl, rfl⟩
      · rintro ⟨_, h, rfl⟩
        cases h
        rfl
  | ok a =>
      constructor
      · intro h
        cases h
      · rintro ⟨_, h, _⟩
        cases h

theorem mapError_bind (x : Except ε α) (f : α → Except ε β) (g : ε → δ) :
    (x >>= f).mapError g = x.mapError g >>= fun a => (f a).mapError g := by
  cases x <;> rfl

theorem mapM_eq_ok {f : α → Except ε β} {xs : List α} {ys : List β} :
    xs.mapM f = .ok ys ↔ xs.map f = ys.map .ok := by
  induction xs generalizing ys with
  | nil => cases ys <;> simp [pure, Except.pure]
  | cons x xs ih =>
      rw [List.mapM_cons, bind_eq_ok]
      constructor
      · rintro ⟨y, hy, htail⟩
        obtain ⟨zs, hzs, ⟨⟩⟩ := bind_eq_ok.mp htail
        rw [List.map_cons, List.map_cons, hy, ih.mp hzs]
      · intro h
        cases ys with
        | nil => simp at h
        | cons y ys =>
            simp only [List.map_cons, List.cons.injEq] at h
            exact ⟨y, h.1, bind_eq_ok.mpr ⟨ys, ih.mpr h.2, rfl⟩⟩

-- A traversal ends in an error of one of its steps.
theorem exists_of_mapM_eq_error {f : α → Except ε β} {xs : List α} {e : ε}
    (h : xs.mapM f = .error e) : ∃ x ∈ xs, f x = .error e := by
  induction xs with
  | nil => cases h
  | cons x xs ih =>
      rw [List.mapM_cons, bind_eq_error] at h
      obtain hhead | ⟨y, _, htail⟩ := h
      · exact ⟨x, by simp, hhead⟩
      · obtain hrest | ⟨_, _, ⟨⟩⟩ := bind_eq_error.mp htail
        obtain ⟨x', hx', he⟩ := ih hrest
        exact ⟨x', List.mem_cons_of_mem _ hx', he⟩

section Traversal

variable {f : α → Except ε β} {xs : List α} {ys : List β}

-- What goes on with all the results goes on with each of them by itself.
theorem mapM_of_mapM_eq_ok (h : xs.mapM f = .ok ys) (g : β → Except ε γ) :
    ys.mapM g = xs.mapM fun x => f x >>= g := by
  have hys : ys.mapM g = (ys.map Except.ok).mapM fun y : Except ε β => y >>= g := by
    rw [List.mapM_map]
    rfl
  rw [hys, ← mapM_eq_ok.mp h, List.mapM_map]
  rfl

theorem mapM_zip_of_mapM_eq_ok (h : xs.mapM f = .ok ys) (text : α → δ)
    (g : β × δ → Except ε γ) :
    (ys.zip (xs.map text)).mapM g = xs.mapM fun x => f x >>= fun y => g (y, text x) := by
  have hys : (ys.zip (xs.map text)).mapM g = ((ys.map Except.ok).zip (xs.map text)).mapM
      fun p : Except ε β × δ => p.1 >>= fun y => g (y, p.2) := by
    rw [List.zip_map_left, List.mapM_map]
    rfl
  rw [hys, ← mapM_eq_ok.mp h, List.zip_map', List.mapM_map]
  rfl

end Traversal

-- All of the first `n` outcomes are there.
def AllOk (n : Nat) (outcome : Nat → Except ε α) : Prop := ∀ i < n, ∃ a, outcome i = .ok a

-- The first outcome that is an error, among the first `n`.
def FirstError (n : Nat) (outcome : Nat → Except ε α) (e : ε) : Prop :=
  ∃ i < n, outcome i = .error e ∧ AllOk i outcome

section Range

variable {n : Nat} {outcome : Nat → Except ε α} {e : ε} {ys : List α}

theorem mapM_range_eq_ok : (List.range n).mapM outcome = .ok ys ↔
    ys.length = n ∧ ∀ i (h : i < ys.length), outcome i = .ok ys[i] := by
  rw [mapM_eq_ok]
  constructor
  · intro h
    have hlength : ys.length = n := by simpa using (congrArg List.length h).symm
    refine ⟨hlength, fun i hi => ?_⟩
    have hi' := congrArg (·[i]?) h
    simpa [hi, hlength ▸ hi] using hi'
  · rintro ⟨hlength, h⟩
    refine List.ext_getElem (by simp [hlength]) fun i hi hi' => ?_
    simpa using h i (by simpa using hi')

theorem firstError_succ : FirstError (n + 1) outcome e ↔
    FirstError n outcome e ∨ AllOk n outcome ∧ outcome n = .error e := by
  constructor
  · rintro ⟨i, hi, he, hbefore⟩
    rcases Nat.lt_succ_iff_lt_or_eq.mp hi with hlt | rfl
    · exact .inl ⟨i, hlt, he, hbefore⟩
    · exact .inr ⟨hbefore, he⟩
  · rintro (⟨i, hi, he, hbefore⟩ | ⟨hbefore, he⟩)
    · exact ⟨i, Nat.lt_succ_of_lt hi, he, hbefore⟩
    · exact ⟨n, Nat.lt_succ_self n, he, hbefore⟩

theorem mapM_range_succ : (List.range (n + 1)).mapM outcome =
    (List.range n).mapM outcome >>= fun ys => (fun y => ys ++ [y]) <$> outcome n := by
  rw [List.range_succ, List.mapM_append]
  simp only [List.mapM_cons, List.mapM_nil, bind_pure_comp, map_pure, Functor.map_map]

theorem exists_mapM_range_eq_ok :
    (∃ ys, (List.range n).mapM outcome = .ok ys) ↔ AllOk n outcome := by
  constructor
  · rintro ⟨ys, h⟩ i hi
    obtain ⟨rfl, hall⟩ := mapM_range_eq_ok.mp h
    exact ⟨_, hall i hi⟩
  · intro h
    induction n with
    | zero => exact ⟨[], rfl⟩
    | succ n ih =>
        obtain ⟨ys, hys⟩ := ih fun i hi => h i (Nat.lt_succ_of_lt hi)
        obtain ⟨y, hy⟩ := h n (Nat.lt_succ_self n)
        rw [mapM_range_succ, hys, hy]
        exact ⟨ys ++ [y], rfl⟩

-- A traversal stops at the first error that it meets.
theorem mapM_range_eq_error :
    (List.range n).mapM outcome = .error e ↔ FirstError n outcome e := by
  induction n with
  | zero => simp [FirstError, pure, Except.pure]
  | succ n ih =>
      have hlast (ys : List α) : (fun y => ys ++ [y]) <$> outcome n = .error e ↔
          outcome n = .error e := by
        cases outcome n <;> simp [Functor.map, Except.map]
      rw [mapM_range_succ, bind_eq_error, ih, firstError_succ]
      simp only [hlast, exists_and_right, exists_mapM_range_eq_ok]

-- What is not there cannot be gone on with.
theorem AllOk.of_bind {next : Nat → α → Except ε β} (h : AllOk n fun i => outcome i >>= next i) :
    AllOk n outcome := by
  intro i hi
  obtain ⟨_, hb⟩ := h i hi
  obtain ⟨a, ha, _⟩ := bind_eq_ok.mp hb
  exact ⟨a, ha⟩

-- One traversal after another: the results of the first are in place before the second is begun.
variable {rest : Except ε β} {b : β}

theorem mapM_range_bind_eq_ok :
    ((List.range n).mapM outcome >>= fun _ => rest) = .ok b ↔ AllOk n outcome ∧ rest = .ok b := by
  rw [bind_eq_ok, exists_and_right, exists_mapM_range_eq_ok]

theorem mapM_range_bind_eq_error : ((List.range n).mapM outcome >>= fun _ => rest) = .error e ↔
    FirstError n outcome e ∨ AllOk n outcome ∧ rest = .error e := by
  rw [bind_eq_error, exists_and_right, exists_mapM_range_eq_ok, mapM_range_eq_error]

end Range

-- A scan from the right puts each token on top of what the tokens behind it were read to.
variable {step : τ → σ → Except ε σ} {t : τ} {us vs : List τ} {s s' s'' : σ}

theorem foldrM_cons_eq_ok :
    (t :: vs).foldrM step s = .ok s'' ↔ ∃ s', vs.foldrM step s = .ok s' ∧ step t s' = .ok s'' := by
  rw [List.foldrM_cons, bind_eq_ok]

theorem foldrM_cons_of_eq_ok (h : vs.foldrM step s = .ok s') :
    (t :: vs).foldrM step s = step t s' := by
  rw [List.foldrM_cons, h]
  rfl

theorem foldrM_append_of_eq_ok (h : vs.foldrM step s = .ok s') :
    (us ++ vs).foldrM step s = us.foldrM step s' := by
  rw [List.foldrM_append, h]
  rfl

-- What every step keeps between the state and the tokens behind it, the whole scan keeps.
theorem foldrM_invariant {Inv : σ → List τ → Prop}
    (hstep : ∀ t s s' vs, Inv s vs → step t s = .ok s' → Inv s' (t :: vs))
    (h : Inv s vs) (hscan : us.foldrM step s = .ok s') : Inv s' (us ++ vs) := by
  induction us generalizing s' with
  | nil =>
      cases hscan
      exact h
  | cons t us ih =>
      obtain ⟨mid, hmid, hlast⟩ := foldrM_cons_eq_ok.mp hscan
      exact hstep t mid s' (us ++ vs) (ih hmid) hlast

-- A scan ends in the error of one of its steps.
theorem foldrM_error {P : ε → Prop} {e : ε} (hstep : ∀ t s e, step t s = .error e → P e)
    (hscan : us.foldrM step s = .error e) : P e := by
  induction us with
  | nil => cases hscan
  | cons t us ih =>
      rw [List.foldrM_cons, bind_eq_error] at hscan
      obtain hrest | ⟨s', _, hlast⟩ := hscan
      · exact ih hrest
      · exact hstep t s' e hlast

-- A text that is written one character after the other, each at the end of what is there.
theorem toList_foldl {step : String → Char → String} {chars : Char → List Char}
    (h : ∀ out c, (step out c).toList = out.toList ++ chars c) (out : String) (cs : List Char) :
    (cs.foldl step out).toList = out.toList ++ cs.flatMap chars := by
  induction cs generalizing out with
  | nil => simp
  | cons c cs ih => rw [List.foldl_cons, ih, h, List.flatMap_cons, List.append_assoc]

end CallSuite
