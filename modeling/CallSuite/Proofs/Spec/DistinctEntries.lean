import CallSuite.Proofs.Binary64.Whole
import CallSuite.Proofs.Clause.Filled
import CallSuite.Proofs.Exhaustive.Estimate
import CallSuite.Proofs.Spec.Params

namespace CallSuite

open CallSuite.Text

namespace Clause

section Rounding

variable {a b : Int}

theorem nodup_map_ofInt_iff : ((Int.range a (b + 1)).map Binary64.ofInt).Nodup ↔
    ¬ ∃ i j, a ≤ i ∧ i < j ∧ j ≤ b ∧ Binary64.ofInt i = Binary64.ofInt j := by
  rw [List.nodup_map_iff_inj_on (nodup_range a (b + 1))]
  simp only [Int.mem_range_iff]
  constructor
  · rintro hinj ⟨i, j, hi, hij, hj, heq⟩
    have := hinj i (by omega) j (by omega) heq
    omega
  · intro hnone i hi j hj heq
    by_contra hne
    rcases Int.lt_or_gt_of_ne hne with hij | hji
    · exact hnone ⟨i, j, by omega, hij, by omega, heq⟩
    · exact hnone ⟨j, i, by omega, hji, by omega, heq.symm⟩

theorem ofInt_ne_of_lt {i j : Int} (hi : -2 ^ 53 ≤ i) (hij : i < j) (hj : j ≤ 2 ^ 53) :
    Binary64.ofInt i ≠ Binary64.ofInt j := by
  intro heq
  have hwhole := congrArg Binary64.toInt? heq
  rw [Binary64.toInt?_ofInt (by omega), Binary64.toInt?_ofInt (by omega)] at hwhole
  have := Option.some.inj hwhole
  omega

end Rounding

-- A range of the text with its bounds.
def RangeIn (ts : List Token) (a b : Int) : Prop :=
  ∃ lo hi, [.word lo, .delim '~', .word hi] <:+: ts ∧
    readInt64? lo.toList = some a ∧ readInt64? hi.toList = some b

-- The numbers of a range of the text, where two integers of the range are rounded to one number.
def Collapsed (ts : List Token) (xs : List Binary64) : Prop :=
  ∃ a b, RangeIn ts a b ∧ xs = (Int.range a (b + 1)).map Binary64.ofInt ∧
    ∃ i j, a ≤ i ∧ i < j ∧ j ≤ b ∧ Binary64.ofInt i = Binary64.ofInt j

section Written

variable {us ts : List Token} {xs : List Binary64}

theorem Collapsed.not_nodup (h : Collapsed ts xs) : ¬ xs.Nodup := by
  obtain ⟨a, b, _, rfl, hsame⟩ := h
  exact fun hnodup => nodup_map_ofInt_iff.mp hnodup hsame

-- A list drops what it repeats, and a range keeps all of its numbers.
theorem Denotes.nodup_iff (h : Denotes us xs) (hsub : us <:+: ts) :
    xs.Nodup ↔ ¬ Collapsed ts xs := by
  refine ⟨fun hnodup hcollapsed => hcollapsed.not_nodup hnodup, fun hnot => ?_⟩
  cases h with
  | list => exact nodup_eraseDups _
  | range h =>
      cases h with
      | @mk a b lo hi ha hb _ _ =>
          rw [nodup_map_ofInt_iff]
          exact fun hsame => hnot ⟨a, b, ⟨lo, hi, hsub, ha, hb⟩, rfl, hsame⟩

theorem Entries.nodup {α : Type} [BEq α] [LawfulBEq α] {entry : Binary64 → Except DomainFault α}
    {ys : List α} (h : Entries entry us ys) : ys.Nodup := by
  obtain ⟨_, _, zs, _, rfl⟩ := h
  exact nodup_eraseDups zs

end Written

end Clause

namespace Clause

variable {us ts : List Token} {role : Role} {tree tree' : TypeTree}

theorem Written.distinct (h : Written role tree us tree') (hsub : us <:+: ts) :
    (tree'.domains role).All (Slot.Holds List.Nodup) (Slot.Holds List.Nodup)
      (Slot.Holds fun xs => xs.Nodup ↔ ¬ Collapsed ts xs) (Slot.Holds List.Nodup) :=
  h.domains_all hsub (fun _ _ _ h => h.nodup) (fun _ _ _ h => h.nodup)
    (fun _ _ hsub h => h.nodup_iff hsub) fun _ _ _ _ h => h.nodup

end Clause

theorem Tree.distinctEntries_iff {node : Node} : node.DistinctEntries ↔
    node.All (fun d => d.exhaustive.toList.Nodup) (fun d => d.exhaustive.toList.Nodup)
      (fun d => d.exhaustive.toList.Nodup) (fun d => d.exhaustive.toList.Nodup) := by
  induction node with
  | int d | bool d | float d | str alphabet d => rfl
  | collection c d item ih => simp only [DistinctEntries, All, ih]
  | dict d key value ihk ihv => simp only [DistinctEntries, All, ihk, ihv]

open Clause

-- The exhaustive domains are free of repetitions, save a float's that was written as a range with
-- integers rounded to one another. Up to 2^53 no integer is rounded.
theorem compileParam_distinct_unless_collapsed {type exhaustive random : String} {node : Node}
    (h : compileParam type exhaustive random = .ok node) :
    node.All (fun d => d.exhaustive.toList.Nodup) (fun d => d.exhaustive.toList.Nodup)
        (fun d => d.exhaustive.toList.Nodup ↔
          ¬ Collapsed (Clause.tokens exhaustive) d.exhaustive.toList)
        (fun d => d.exhaustive.toList.Nodup) ∧
      ((∀ a b, RangeIn (Clause.tokens exhaustive) a b → -2 ^ 53 ≤ a ∧ b ≤ 2 ^ 53) →
        node.DistinctEntries) := by
  obtain ⟨bare, half, full, _, hhalf, hfull, hseal⟩ := compileParam_eq_ok.mp h
  have hwritten := TypeTree.written_of_decorate_eq_ok hhalf
  have hall := hwritten.distinct List.infix_rfl
  have hdomains : half.domains .exhaustive = node.map fun d => some d.exhaustive := by
    have hne : Role.exhaustive ≠ .random := by decide
    have hkept := half.domains_decorate hne random
    rw [hfull] at hkept
    rw [← hkept, Tree.domains_of_seal hseal]
    rfl
  rw [hdomains, Tree.all_map] at hall
  refine ⟨hall, fun hbounds => ?_⟩
  have hnone : ∀ xs, ¬ Collapsed (Clause.tokens exhaustive) xs := by
    rintro xs ⟨a, b, hrange, _, i, j, hi, hij, hj, heq⟩
    obtain ⟨ha, hb⟩ := hbounds a b hrange
    exact ofInt_ne_of_lt (by omega) hij (by omega) heq
  simp only [hnone, not_false_eq_true, iff_true] at hall
  exact Tree.distinctEntries_iff.mpr hall

-- The last two integers of which none is rounded, and the first two that are rounded to one number.
def lastExact : Node :=
  .float ⟨.cons ⟨0x433fffffffffffff⟩ [⟨0x4340000000000000⟩], .cons ⟨0⟩ []⟩

def firstRounded : Node :=
  .float ⟨.cons ⟨0x4340000000000000⟩ [⟨0x4340000000000000⟩], .cons ⟨0⟩ []⟩

theorem distinctEntries_lastExact :
    compileParam "float" "9007199254740991~9007199254740992" "[0]" = .ok lastExact ∧
      lastExact.DistinctEntries := by
  have htokens : Clause.tokens "9007199254740991~9007199254740992" =
      [.word "9007199254740991", .delim '~', .word "9007199254740992"] := rfl
  have hlo : readInt64? "9007199254740991".toList = some 9007199254740991 := by decide +kernel
  have hhi : readInt64? "9007199254740992".toList = some 9007199254740992 := by decide +kernel
  have hvalues : (Int.range 9007199254740991 (9007199254740992 + 1)).map Binary64.ofInt =
      [⟨0x433fffffffffffff⟩, ⟨0x4340000000000000⟩] := by decide +kernel
  have hrange := RangeClause.mk hlo hhi (by decide) (by decide)
  rw [hvalues, ← htokens] at hrange
  have hzero : Denotes (Clause.tokens "[0]") [⟨0⟩] := .list (.mk (.last (by decide)))
  have hcompile : compileParam _ _ _ = .ok lastExact := compileParam_float (.range hrange) hzero
  refine ⟨hcompile, (compileParam_distinct_unless_collapsed hcompile).2 ?_⟩
  rintro a b ⟨lo, hi, hsub, ha, hb⟩
  rw [htokens] at hsub
  have hwords := hsub.eq_of_length rfl
  simp only [List.cons.injEq, Token.word.injEq, and_true, true_and] at hwords
  obtain ⟨rfl, rfl⟩ := hwords
  rw [hlo, Option.some.injEq] at ha
  rw [hhi, Option.some.injEq] at hb
  omega

-- One number is there twice, so the estimate counts two values where there is one.
theorem compileParam_repeats_firstRounded :
    compileParam "float" "9007199254740992~9007199254740993" "[0]" = .ok firstRounded ∧
      ¬ firstRounded.DistinctEntries ∧ firstRounded.estimate = 2 ∧
      firstRounded.exhaustiveValues.length = 1 := by
  have htokens : Clause.tokens "9007199254740992~9007199254740993" =
      [.word "9007199254740992", .delim '~', .word "9007199254740993"] := rfl
  have hlo : readInt64? "9007199254740992".toList = some 9007199254740992 := by decide +kernel
  have hhi : readInt64? "9007199254740993".toList = some 9007199254740993 := by decide +kernel
  have hvalues : (Int.range 9007199254740992 (9007199254740993 + 1)).map Binary64.ofInt =
      [⟨0x4340000000000000⟩, ⟨0x4340000000000000⟩] := by decide +kernel
  have hrange := RangeClause.mk hlo hhi (by decide) (by decide)
  rw [hvalues, ← htokens] at hrange
  have hzero : Denotes (Clause.tokens "[0]") [⟨0⟩] := .list (.mk (.last (by decide)))
  refine ⟨compileParam_float (.range hrange) hzero, by decide, rfl, ?_⟩
  simp only [firstRounded, Tree.exhaustiveValues, distinct_eq]
  rfl

end CallSuite
