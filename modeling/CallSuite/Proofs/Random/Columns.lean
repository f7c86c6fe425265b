import CallSuite.Proofs.Random.Source
import CallSuite.Random.Values
import Mathlib.Data.List.Basic

namespace CallSuite

-- The value that a source gives after `k` others for the same node.
def Tree.nthRandomValue [IndexSource σ] (node : Node) : (k : Nat) → σ → Value
  | 0, s => (node.randomValue s).1
  | k + 1, s => node.nthRandomValue k (node.randomValue s).2

namespace CaseStream

variable {σ : Type} [IndexSource σ]

-- The case that comes after `k` others. Each column has gone on by itself.
def nthCase (s : CaseStream σ) (k : Nat) : TestCase :=
  ⟨s.columns.map fun (node, s) => node.nthRandomValue k s⟩

theorem next_fst (s : CaseStream σ) : s.next.1 = s.nthCase 0 := by
  simp [next, nthCase, Tree.nthRandomValue]

theorem nthCase_next (s : CaseStream σ) (k : Nat) : s.next.2.nthCase k = s.nthCase (k + 1) := by
  simp [next, nthCase, Tree.nthRandomValue]

theorem take_fst (n : Nat) (s : CaseStream σ) : (s.take n).1 = (List.range n).map s.nthCase := by
  induction n generalizing s with
  | zero => rfl
  | succ n ih =>
      have hlater : (List.range n).map s.next.2.nthCase =
          (List.range n).map fun k => s.nthCase (k + 1) :=
        List.map_congr_left fun k _ => s.nthCase_next k
      rw [take, times_succ, List.range_succ_eq_map, List.map_cons, List.map_map, next_fst]
      exact congrArg (s.nthCase 0 :: ·) ((ih s.next.2).trans hlater)

-- Streams that are read in turn. A step takes the next `n` cases of the stream at place `j`.
def readInTurn : List (CaseStream σ) → (steps : List (Nat × Nat)) → List (Nat × List TestCase)
  | _, [] => []
  | streams, (j, n) :: steps => match streams[j]? with
    | some s => (j, (s.take n).1) :: readInTurn (streams.set j (s.take n).2) steps
    | none => readInTurn streams steps

-- The cases of one stream among the chunks that were read.
def casesOf (j : Nat) (chunks : List (Nat × List TestCase)) : List TestCase :=
  (chunks.filter (·.1 = j)).flatMap (·.2)

-- How many cases the steps take of one stream.
def takenOf (j : Nat) : (steps : List (Nat × Nat)) → Nat
  | [] => 0
  | (i, n) :: steps => if i = j then n + takenOf j steps else takenOf j steps

-- A stream is not moved on by the steps of another one.
theorem casesOf_readInTurn {streams : List (CaseStream σ)} {j : Nat} {s : CaseStream σ}
    (h : streams[j]? = some s) (steps : List (Nat × Nat)) :
    casesOf j (readInTurn streams steps) = (s.take (takenOf j steps)).1 := by
  induction steps generalizing streams s with
  | nil => rfl
  | cons step steps ih =>
      obtain ⟨i, n⟩ := step
      by_cases hij : i = j
      · subst hij
        have hlt : i < streams.length := (List.getElem?_eq_some_iff.mp h).1
        have hrest := ih (List.getElem?_set_self (a := (s.take n).2) hlt)
        rw [takenOf, if_pos rfl]
        simp only [readInTurn, h, casesOf] at hrest ⊢
        simp only [decide_true, List.filter_cons_of_pos, List.flatMap_cons, hrest]
        exact congrArg Prod.fst (times_add n _ s).symm
      · rw [takenOf, if_neg hij, readInTurn]
        split
        next other hother =>
          have hkept : (streams.set i (other.take n).2)[j]? = some s := by
            rw [List.getElem?_set_ne hij, h]
          rw [← ih hkept]
          simp [casesOf, hij]
        next => exact ih h

end CaseStream

section Columns

open CaseStream

variable {σ : Type} [IndexSource σ]

theorem args_nthCase_ofSources (params : List Node) (source : Nat → σ) (k i : Nat) :
    ((ofSources params source).nthCase k).args[i]? =
      params[i]?.map fun node => node.nthRandomValue k (source i) := by
  simp only [nthCase, ofSources, List.getElem?_map, List.getElem?_mapIdx, Option.map_map]
  rfl

theorem column_take_ofSources (params : List Node) (source : Nat → σ) (n i : Nat) :
    ((ofSources params source).take n).1.map (·.args[i]?) = (List.range n).map fun k =>
      params[i]?.map fun node => node.nthRandomValue k (source i) := by
  rw [take_fst, List.map_map]
  exact List.map_congr_left fun k _ => args_nthCase_ofSources params source k i

theorem take_prefix (s : CaseStream σ) {n m : Nat} (h : n ≤ m) : (s.take n).1 <+: (s.take m).1 := by
  obtain ⟨k, rfl⟩ := Nat.exists_eq_add_of_le h
  rw [take, take, times_add]
  exact List.prefix_append _ _

-- Whatever the sources are, a column of the cases is what its parameter draws from the source of
-- its place, so nothing but that source and the parameter itself counts. How the cases are read
-- does not either.
theorem take_ofSources_by_columns (params : List Node) (source : Nat → σ) :
    (∀ n k, k < n → ∃ case, ((ofSources params source).take n).1[k]? = some case ∧
      case.args.length = params.length ∧ ∀ (i : Nat) (node : Node), params[i]? = some node →
        case.args[i]? = some (node.nthRandomValue k (source i))) ∧
    (∀ (others : List Node) (source' : Nat → σ) (i : Nat), others[i]? = params[i]? →
      source' i = source i → ∀ n,
      ((ofSources others source').take n).1.map (·.args[i]?) =
        ((ofSources params source).take n).1.map (·.args[i]?)) ∧
    (∀ n, ((ofSources params source).take n).1.length = n) ∧
    (∀ n m, n ≤ m → ((ofSources params source).take n).1 <+: ((ofSources params source).take m).1) ∧
    ∀ (streams : List (CaseStream σ)) (steps : List (Nat × Nat)) (j : Nat),
      streams[j]? = some (ofSources params source) →
      casesOf j (readInTurn streams steps) =
        ((ofSources params source).take (takenOf j steps)).1 := by
  refine ⟨fun n k hk => ⟨(ofSources params source).nthCase k, ?_, ?_, ?_⟩, ?_, fun n => ?_,
    fun n m => take_prefix _, fun streams steps j h => casesOf_readInTurn h steps⟩
  · rw [take_fst, List.getElem?_map, List.getElem?_range hk, Option.map_some]
  · simp [nthCase, ofSources]
  · intro i node hnode
    rw [args_nthCase_ofSources, hnode, Option.map_some]
  · intro others source' i hi hsource n
    rw [column_take_ofSources, column_take_ofSources, hi, hsource]
  · rw [take_fst, List.length_map, List.length_range]

-- The streams of a seed are such sources, and what a parameter draws is fixed by the seed and its
-- place.
theorem randomSuite_by_columns (params : List Node) (seed : UInt64) :
    (∀ n k, k < n → ∃ case, (randomSuite params n seed)[k]? = some case ∧
      case.args.length = params.length ∧ ∀ (i : Nat) (node : Node), params[i]? = some node →
        case.args[i]? =
          some (node.nthRandomValue k (Generator.ofSeed seed (UInt64.ofNat i)))) ∧
    (∀ (others : List Node) (i : Nat), others[i]? = params[i]? → ∀ n,
      (randomSuite others n seed).map (·.args[i]?) =
        (randomSuite params n seed).map (·.args[i]?)) ∧
    (∀ n, (randomSuite params n seed).length = n) ∧
    (∀ n m, n ≤ m → randomSuite params n seed <+: randomSuite params m seed) ∧
    ∀ (streams : List (CaseStream Generator)) (steps : List (Nat × Nat)) (j : Nat),
      streams[j]? = some (CaseStream.ofSeed params seed) →
      casesOf j (readInTurn streams steps) = randomSuite params (takenOf j steps) seed := by
  obtain ⟨hcase, hcolumn, hlength, hprefix, hturn⟩ := take_ofSources_by_columns params
    fun i => Generator.ofSeed seed (UInt64.ofNat i)
  exact ⟨hcase, fun others i hi => hcolumn others _ i hi rfl, hlength, hprefix, hturn⟩

end Columns

end CallSuite
