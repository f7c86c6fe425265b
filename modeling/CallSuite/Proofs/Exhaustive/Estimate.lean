import CallSuite.Exhaustive.Estimate
import CallSuite.Proofs.Distinct
import CallSuite.Proofs.Exhaustive.Containers
import CallSuite.Proofs.Tree.Slots
import Mathlib.Algebra.GroupWithZero.Nat
import Mathlib.Data.Nat.Choose.Basic

namespace CallSuite

theorem forall_prefix_iff (P : List α → α → Prop) (xs : List α) :
    (∀ before x, before ++ [x] <+: xs → P before x) ↔
      ∀ i : Fin xs.length, P (xs.take i) xs[i] := by
  constructor
  · intro h i
    refine h _ _ ?_
    rw [Fin.getElem_fin, List.take_append_getElem]
    exact List.take_prefix _ _
  · rintro h before x ⟨rest, rfl⟩
    have hx := h ⟨before.length, by simp⟩
    simpa using hx

namespace Estimate

-- An estimate that is never too great, and right under the condition `fits`.
structure Approximates (fits : Prop) (estimate count : Nat) : Prop where
  le : estimate ≤ count
  eq : fits → estimate = count

variable {fits fits' : Prop} {a b m n : Nat}

theorem Approximates.mul (ha : Approximates fits a m) (hb : Approximates fits' b n) :
    Approximates (fits ∧ fits' ∧ a * b ≤ limit) (mul a b) (m * n) where
  le := (Nat.min_le_left _ _).trans (Nat.mul_le_mul ha.le hb.le)
  eq := by
    rintro ⟨hfa, hfb, hlimit⟩
    rw [← ha.eq hfa, ← hb.eq hfb]
    exact Nat.min_eq_left hlimit

theorem Approximates.add (ha : Approximates fits a m) (hb : Approximates fits' b n) :
    Approximates (fits ∧ fits' ∧ a + b ≤ limit) (add a b) (m + n) where
  le := (Nat.min_le_left _ _).trans (Nat.add_le_add ha.le hb.le)
  eq := by
    rintro ⟨hfa, hfb, hlimit⟩
    rw [← ha.eq hfa, ← hb.eq hfb]
    exact Nat.min_eq_left hlimit

theorem Approximates.imp (h : Approximates fits a m) (himp : fits' → fits) :
    Approximates fits' a m := ⟨h.le, fun hf => h.eq (himp hf)⟩

-- No product on the way to a power goes beyond the limit.
def PowerFits (base n : Nat) : Prop := ∀ i < n, power base i * base ≤ limit

instance (base n : Nat) : Decidable (PowerFits base n) :=
  inferInstanceAs (Decidable (∀ i < n, _))

theorem power_succ (base n : Nat) : power base (n + 1) = mul (power base n) base := rfl

theorem Approximates.power (h : Approximates fits a m) (n : Nat) :
    Approximates (fits ∧ PowerFits a n) (power a n) (m ^ n) := by
  induction n with
  | zero => exact ⟨Nat.le_refl 1, fun _ => rfl⟩
  | succ n ih =>
      rw [power_succ, pow_succ]
      refine (ih.mul h).imp ?_
      rintro ⟨hf, hpower⟩
      refine ⟨⟨hf, fun i hi => ?_⟩, hf, ?_⟩
      · exact hpower i (by omega)
      · exact hpower n (by omega)

-- The product of the first `i` factors, each with its divisor divided out.
def binomialUpTo (n i : Nat) : Nat := Nat.fold i (fun i _ c => mul c (n - i) / (i + 1)) 1

theorem binomialUpTo_succ (n i : Nat) :
    binomialUpTo n (i + 1) = mul (binomialUpTo n i) (n - i) / (i + 1) := by
  rw [binomialUpTo, Nat.fold_succ]
  rfl

theorem binomial_eq (h : m ≤ n) : binomial n m = binomialUpTo n (min m (n - m)) := by
  rw [binomial, if_neg (by omega)]
  rfl

theorem choose_min_sub {n k : Nat} (h : k ≤ n) : n.choose (min k (n - k)) = n.choose k := by
  rcases Nat.le_total k (n - k) with hle | hle
  · rw [Nat.min_eq_left hle]
  · rw [Nat.min_eq_right hle, Nat.choose_symm h]

def BinomialFits (n k : Nat) : Prop :=
  k ≤ n → ∀ i < min k (n - k), binomialUpTo n i * (n - i) ≤ limit

instance (n k : Nat) : Decidable (BinomialFits n k) :=
  inferInstanceAs (Decidable (k ≤ n → ∀ i < _, _))

-- Every division is exact as long as the product in front of it is.
theorem binomialUpTo_approximates (n i : Nat) :
    Approximates (∀ j < i, binomialUpTo n j * (n - j) ≤ limit) (binomialUpTo n i)
      (n.choose i) := by
  induction i with
  | zero => exact ⟨by simp [binomialUpTo], fun _ => by simp [binomialUpTo]⟩
  | succ i ih =>
      have hstep : n.choose i * (n - i) / (i + 1) = n.choose (i + 1) := by
        rw [← Nat.choose_succ_right_eq]
        exact Nat.mul_div_cancel _ i.succ_pos
      have hfactor : Approximates True (n - i) (n - i) := ⟨Nat.le_refl _, fun _ => rfl⟩
      have hmul := ih.mul hfactor
      rw [binomialUpTo_succ, ← hstep]
      refine ⟨Nat.div_le_div_right hmul.le, fun hfits => ?_⟩
      rw [hmul.eq ⟨fun j hj => hfits j (by omega), trivial, hfits i (by omega)⟩]

theorem Approximates.binomial (h : Approximates fits a m) (k : Nat) :
    Approximates (fits ∧ BinomialFits a k) (binomial a k) (m.choose k) := by
  by_cases hk : k ≤ a
  · have happrox := binomialUpTo_approximates a (min k (a - k))
    rw [choose_min_sub hk] at happrox
    rw [binomial_eq hk]
    refine ⟨happrox.le.trans (Nat.choose_le_choose k h.le), ?_⟩
    rintro ⟨hf, hfits⟩
    rw [happrox.eq (hfits hk), h.eq hf]
  · have hzero : Estimate.binomial a k = 0 := by rw [Estimate.binomial, if_pos (by omega)]
    refine ⟨by omega, ?_⟩
    rintro ⟨hf, _⟩
    rw [hzero, ← h.eq hf, Nat.choose_eq_zero_of_lt (by omega)]

def SumFits (ns : List Nat) (f : Nat → Nat) : Prop :=
  ∀ before n, before ++ [n] <+: ns → sumOver before f + f n ≤ limit

instance (ns : List Nat) (f : Nat → Nat) : Decidable (SumFits ns f) :=
  decidable_of_iff _ (forall_prefix_iff (fun before n => sumOver before f + f n ≤ limit) ns).symm

theorem sumOver_append_singleton (ns : List Nat) (n : Nat) (f : Nat → Nat) :
    sumOver (ns ++ [n]) f = add (sumOver ns f) (f n) := by
  simp only [sumOver, List.foldl_append, List.foldl_cons, List.foldl_nil]

theorem sumOver_approximates {f g : Nat → Nat} {fits : Nat → Prop} (ns : List Nat)
    (h : ∀ n ∈ ns, Approximates (fits n) (f n) (g n)) :
    Approximates ((∀ n ∈ ns, fits n) ∧ SumFits ns f) (sumOver ns f) (ns.map g).sum := by
  induction ns using List.reverseRecOn with
  | nil => exact ⟨Nat.le_refl 0, fun _ => rfl⟩
  | append_singleton ns n ih =>
      rw [sumOver_append_singleton, List.map_append, List.sum_append, List.map_singleton,
        List.sum_singleton]
      have hns := ih fun k hk => h k (List.mem_append_left _ hk)
      refine (hns.add (h n (by simp))).imp ?_
      rintro ⟨hall, hsum⟩
      refine ⟨⟨?_, ?_⟩, hall n (by simp), ?_⟩
      · exact fun k hk => hall k (List.mem_append_left _ hk)
      · exact fun before k hk => hsum before k (hk.trans (List.prefix_append _ _))
      · exact hsum ns n (List.prefix_refl _)

end Estimate

open Estimate

-- No exhaustive domain of the tree repeats an entry.
def Tree.DistinctEntries : Node → Prop
  | .int d => d.exhaustive.toList.Nodup
  | .bool d => d.exhaustive.toList.Nodup
  | .float d => d.exhaustive.toList.Nodup
  | .str _ d => d.exhaustive.toList.Nodup
  | .collection _ d item => d.exhaustive.toList.Nodup ∧ item.DistinctEntries
  | .dict d key value => d.exhaustive.toList.Nodup ∧ key.DistinctEntries ∧ value.DistinctEntries

instance Tree.decidableDistinctEntries : (node : Node) → Decidable node.DistinctEntries
  | .int d => inferInstanceAs (Decidable d.exhaustive.toList.Nodup)
  | .bool d => inferInstanceAs (Decidable d.exhaustive.toList.Nodup)
  | .float d => inferInstanceAs (Decidable d.exhaustive.toList.Nodup)
  | .str _ d => inferInstanceAs (Decidable d.exhaustive.toList.Nodup)
  | .collection _ d item =>
    have := item.decidableDistinctEntries
    inferInstanceAs (Decidable (d.exhaustive.toList.Nodup ∧ item.DistinctEntries))
  | .dict d key value =>
    have := key.decidableDistinctEntries
    have := value.decidableDistinctEntries
    inferInstanceAs (Decidable
      (d.exhaustive.toList.Nodup ∧ key.DistinctEntries ∧ value.DistinctEntries))

-- None of the additions and multiplications behind the estimate goes beyond the limit.
def Tree.EstimateFits : Node → Prop
  | .int _ | .bool _ | .float _ => True
  | .str alphabet d =>
    (∀ n ∈ d.exhaustive.toList, PowerFits alphabet.size n) ∧
      SumFits d.exhaustive.toList (Estimate.power alphabet.size)
  | .collection .set d item =>
    item.EstimateFits ∧ (∀ n ∈ d.exhaustive.toList, BinomialFits item.estimate n) ∧
      SumFits d.exhaustive.toList (Estimate.binomial item.estimate)
  | .collection _ d item =>
    item.EstimateFits ∧ (∀ n ∈ d.exhaustive.toList, PowerFits item.estimate n) ∧
      SumFits d.exhaustive.toList (Estimate.power item.estimate)
  | .dict d key value =>
    key.EstimateFits ∧ value.EstimateFits ∧
      (∀ n ∈ d.exhaustive.toList, BinomialFits key.estimate n ∧ PowerFits value.estimate n ∧
        Estimate.binomial key.estimate n * Estimate.power value.estimate n ≤ limit) ∧
      SumFits d.exhaustive.toList fun n =>
        Estimate.mul (Estimate.binomial key.estimate n) (Estimate.power value.estimate n)

instance Tree.decidableEstimateFits : (node : Node) → Decidable node.EstimateFits
  | .int _ | .bool _ | .float _ => .isTrue trivial
  | .str _ _ => inferInstanceAs (Decidable (_ ∧ _))
  | .collection .set _ item | .collection .list _ item | .collection .tuple _ item =>
    have := item.decidableEstimateFits
    inferInstanceAs (Decidable (item.EstimateFits ∧ _ ∧ _))
  | .dict _ key value =>
    have := key.decidableEstimateFits
    have := value.decidableEstimateFits
    inferInstanceAs (Decidable (key.EstimateFits ∧ value.EstimateFits ∧ _ ∧ _))

def SuiteEstimateFits (params : List Node) : Prop :=
  (∀ node ∈ params, node.EstimateFits) ∧
    ∀ before node, before ++ [node] <+: params → estimateSuite before * node.estimate ≤ limit

instance (params : List Node) : Decidable (SuiteEstimateFits params) :=
  have := decidable_of_iff _ (forall_prefix_iff
    (fun before (node : Node) => estimateSuite before * node.estimate ≤ limit) params).symm
  inferInstanceAs (Decidable (_ ∧ _))

theorem Value.length_dicts (keys values : List Value) (n : Nat) :
    (dicts keys values n).length = keys.length.choose n * values.length ^ n := by
  simp only [dicts, List.length_flatMap, List.length_map, length_power, List.map_const',
    List.sum_replicate_nat, length_combinations]

theorem Tree.estimate_approximates (node : Node) (h : node.DistinctEntries) :
    Approximates node.EstimateFits node.estimate node.exhaustiveValues.length := by
  induction node with
  | int d | bool d | float d =>
      rw [exhaustiveValues, distinct_eq_self h, List.length_map]
      exact ⟨Nat.le_refl _, fun _ => rfl⟩
  | str alphabet d =>
      have hchars : Approximates True alphabet.size alphabet.toList.length :=
        ⟨Nat.le_refl _, fun _ => rfl⟩
      simp only [exhaustiveValues, distinct_eq_self h, List.length_flatMap, List.length_map,
        length_power]
      refine (sumOver_approximates _ fun n _ => hchars.power n).imp ?_
      rintro ⟨hpower, hsum⟩
      exact ⟨fun n hn => ⟨trivial, hpower n hn⟩, hsum⟩
  | collection c d item ih =>
      have hitem := ih h.2
      simp only [exhaustiveValues, distinct_eq_self h.1, List.length_flatMap, List.length_map]
      cases c with
      | set =>
          simp only [Collection.rows, length_combinations]
          refine (sumOver_approximates _ fun n _ => hitem.binomial n).imp ?_
          rintro ⟨hf, hfits, hsum⟩
          exact ⟨fun n hn => ⟨hf, hfits n hn⟩, hsum⟩
      | _ =>
          simp only [Collection.rows, length_power]
          refine (sumOver_approximates _ fun n _ => hitem.power n).imp ?_
          rintro ⟨hf, hfits, hsum⟩
          exact ⟨fun n hn => ⟨hf, hfits n hn⟩, hsum⟩
  | dict d key value ihk ihv =>
      have hkey := ihk h.2.1
      have hvalue := ihv h.2.2
      simp only [exhaustiveValues, distinct_eq_self h.1, List.length_flatMap, Value.length_dicts]
      refine (sumOver_approximates _ fun n _ => (hkey.binomial n).mul (hvalue.power n)).imp ?_
      rintro ⟨hfk, hfv, hfits, hsum⟩
      refine ⟨fun n hn => ?_, hsum⟩
      obtain ⟨hbinomial, hpower, hproduct⟩ := hfits n hn
      exact ⟨⟨hfk, hbinomial⟩, ⟨hfv, hpower⟩, hproduct⟩

theorem length_exhaustiveSuite (params : List Node) :
    (exhaustiveSuite params).length =
      (params.map fun node => node.exhaustiveValues.length).prod := by
  rw [exhaustiveSuite, List.length_map, length_product, List.map_map]
  rfl

theorem estimateSuite_append_singleton (params : List Node) (node : Node) :
    estimateSuite (params ++ [node]) = mul (estimateSuite params) node.estimate := by
  simp only [estimateSuite, List.foldl_append, List.foldl_cons, List.foldl_nil]

theorem estimateSuite_approximates (params : List Node)
    (h : ∀ node ∈ params, node.DistinctEntries) :
    Approximates (SuiteEstimateFits params) (estimateSuite params)
      (params.map fun node => node.exhaustiveValues.length).prod := by
  induction params using List.reverseRecOn with
  | nil => exact ⟨Nat.le_refl 1, fun _ => rfl⟩
  | append_singleton params node ih =>
      rw [estimateSuite_append_singleton, List.map_append, List.prod_append, List.map_singleton,
        List.prod_singleton]
      have hparams := ih fun node hnode => h node (List.mem_append_left _ hnode)
      have hnode := node.estimate_approximates (h node (by simp))
      refine (hparams.mul hnode).imp ?_
      rintro ⟨hall, hproduct⟩
      refine ⟨⟨?_, ?_⟩, hall node (by simp), ?_⟩
      · exact fun node hnode => hall node (List.mem_append_left _ hnode)
      · exact fun before node hnode => hproduct before node (hnode.trans (List.prefix_append _ _))
      · exact hproduct params node (List.prefix_refl _)

-- The estimate is never too great, and it is exact unless an operation saturates on the way.
theorem estimateSuite_le_length_and_exact (params : List Node)
    (h : ∀ node ∈ params, node.DistinctEntries) :
    estimateSuite params ≤ (exhaustiveSuite params).length ∧
      (SuiteEstimateFits params → estimateSuite params = (exhaustiveSuite params).length) := by
  have happrox := estimateSuite_approximates params h
  rw [length_exhaustiveSuite]
  exact ⟨happrox.le, happrox.eq⟩

-- A set of ints and a dict from truth values to ints.
def setAndDict : List Node :=
  [.collection .set ⟨.cons 0 [2], .cons 1 []⟩ (.int ⟨.cons 1 [2, 3], .cons 1 []⟩),
    .dict ⟨.cons 1 [], .cons 1 []⟩ (.bool ⟨.cons false [true], .cons true []⟩)
      (.int ⟨.cons 4 [5], .cons 4 []⟩)]

theorem estimateSuite_setAndDict :
    (∀ node ∈ setAndDict, node.DistinctEntries) ∧ SuiteEstimateFits setAndDict ∧
      estimateSuite setAndDict = 16 ∧ (exhaustiveSuite setAndDict).length = 16 := by
  have hdistinct : ∀ node ∈ setAndDict, node.DistinctEntries := by decide
  have hfits : SuiteEstimateFits setAndDict := by decide
  have hestimate : estimateSuite setAndDict = 16 := by decide
  exact ⟨hdistinct, hfits, hestimate,
    ((estimateSuite_le_length_and_exact setAndDict hdistinct).2 hfits).symm.trans hestimate⟩

end CallSuite
