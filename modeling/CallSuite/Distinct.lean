import Std.Data.HashSet

namespace CallSuite

-- The entries that were met, and those that were kept.
def distinctStep [BEq α] [Hashable α] (state : Std.HashSet α × Array α) (x : α) :
    Std.HashSet α × Array α :=
  if state.1.contains x then state else (state.1.insert x, state.2.push x)

-- Of equal entries the first one stays.
def distinct [BEq α] [Hashable α] (xs : List α) : List α :=
  (xs.foldl distinctStep (∅, #[])).2.toList

theorem toList_foldl_distinctStep [BEq α] [LawfulBEq α] [Hashable α] (xs : List α)
    (seen : Std.HashSet α) (kept : Array α) :
    (xs.foldl distinctStep (seen, kept)).2.toList =
      kept.toList ++ (xs.filter fun x => !seen.contains x).eraseDups := by
  induction xs generalizing seen kept with
  | nil => simp
  | cons x xs ih =>
      rw [List.foldl_cons, distinctStep]
      by_cases h : seen.contains x
      · simp [h, ih]
      · simp only [h, Bool.false_eq_true, ↓reduceIte]
        rw [ih, Array.toList_push, List.append_assoc]
        simp only [List.filter_cons, h, Bool.not_false, ↓reduceIte, List.eraseDups_cons,
          List.filter_filter, List.singleton_append]
        congr 3
        apply List.filter_congr
        intro y _
        rw [Std.HashSet.contains_insert, Bool.not_or, Bool.beq_comm]

-- A hash table makes no difference but to the time it takes.
theorem distinct_eq_eraseDups [BEq α] [LawfulBEq α] [Hashable α] (xs : List α) :
    distinct xs = xs.eraseDups := by
  have hempty : (xs.filter fun x => !(∅ : Std.HashSet α).contains x) = xs := by simp
  rw [distinct, toList_foldl_distinctStep, hempty, List.nil_append]

end CallSuite
