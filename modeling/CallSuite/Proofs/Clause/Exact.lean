import CallSuite.Proofs.Binary64.Number
import CallSuite.Proofs.Clause.Alignment
import CallSuite.Proofs.Clause.Entry

namespace CallSuite

open CallSuite.Text

namespace Binary64

variable {x : Binary64}

def IsWhole (x : Binary64) : Prop := x.isFinite ∧ x.value.den = 1

-- The only number below zero that is not finite is the lower infinity.
def IsNegativeNumber (x : Binary64) : Prop := (x.isFinite ∧ x.value < 0) ∨ x = negativeInfinity

instance : Decidable x.IsWhole := inferInstanceAs (Decidable (_ ∧ _))

instance : Decidable x.IsNegativeNumber := inferInstanceAs (Decidable (_ ∨ _))

theorem isWhole_iff : x.IsWhole ↔ ∃ i, x.toInt? = some i := by
  simp only [toInt?_eq_some_iff, exists_and_left]
  refine and_congr_right fun _ => ?_
  constructor
  · intro h
    exact ⟨x.value.num, ((Rat.den_eq_one_iff _).mp h).symm⟩
  · rintro ⟨i, h⟩
    rw [h, Rat.den_intCast]

end Binary64

namespace Clause

open Binary64

-- What is wrong with a number as the entry of a node of each kind, told by the number alone.
def intFault? (x : Binary64) : Option DomainFault :=
  if x.IsWhole ∧ -2 ^ 63 ≤ x.value ∧ x.value < 2 ^ 63 then none else some (.notIntegral .int x)

def boolFault? (x : Binary64) : Option DomainFault :=
  if x.isFinite ∧ (x.value = 0 ∨ x.value = 1) then none else some (.invalidBool x)

def sizeFault? (kind : Kind) (x : Binary64) : Option DomainFault :=
  if x.IsNegativeNumber then some (.negativeSize kind x)
  else if ¬ x.IsWhole then some (.notIntegral kind x)
  else if maxRangeLength < x.value then some (.sizeTooLarge kind x)
  else none

-- A number is refused for what is wrong with it, and if nothing is, the entry is that number.
structure Exact (entry : Binary64 → Except DomainFault α) (fault? : Binary64 → Option DomainFault)
    (number : α → ℚ) : Prop where
  refuses : ∀ {x e}, fault? x = some e → entry x = .error e
  accepts : ∀ {x}, fault? x = none → ∃ y, entry x = .ok y ∧ x.isFinite ∧ x.value = number y

section Entry

theorem intEntry_exact : Exact intEntry intFault? (fun i : ℤ => i) := by
  have hint64 {x : Binary64} {i : Int} (h : x.value = i) :
      IsInt64 i ↔ -2 ^ 63 ≤ x.value ∧ x.value < 2 ^ 63 := by
    rw [h, IsInt64]
    norm_cast
  constructor
  · intro x e h
    unfold intFault? at h
    split at h <;> cases h
    next hfault =>
      unfold intEntry
      split
      next i hi =>
        obtain ⟨_, hvalue⟩ := toInt?_eq_some_iff.mp hi
        have hwhole := isWhole_iff.mpr ⟨i, hi⟩
        rw [if_neg fun h => hfault ⟨hwhole, (hint64 hvalue).mp h⟩]
      next => rfl
  · intro x h
    unfold intFault? at h
    split at h <;> cases h
    next haccept =>
      obtain ⟨hwhole, hbounds⟩ := haccept
      obtain ⟨i, hi⟩ := isWhole_iff.mp hwhole
      obtain ⟨hfinite, hvalue⟩ := toInt?_eq_some_iff.mp hi
      exact ⟨i, intEntry_eq_ok.mpr ⟨hi, (hint64 hvalue).mpr hbounds⟩, hfinite, hvalue⟩

theorem boolEntry_eq_ok {x : Binary64} {b : Bool} :
    boolEntry x = .ok b ↔ x.toInt? = some (if b then 1 else 0) := by
  unfold boolEntry
  cases b <;> split <;> simp_all

theorem boolEntry_exact : Exact boolEntry boolFault? (fun b => if b then 1 else 0) := by
  have hbool {x : Binary64} {b : Bool} : boolEntry x = .ok b ↔
      x.isFinite ∧ x.value = if b then 1 else 0 := by
    rw [boolEntry_eq_ok, toInt?_eq_some_iff]
    cases b <;> simp
  constructor
  · intro x e h
    unfold boolFault? at h
    split at h <;> cases h
    next hfault =>
      cases hentry : boolEntry x with
      | ok b =>
          obtain ⟨hfinite, hvalue⟩ := hbool.mp hentry
          refine absurd ⟨hfinite, ?_⟩ hfault
          cases b
          · exact .inl hvalue
          · exact .inr hvalue
      | error e =>
          unfold boolEntry at hentry
          split at hentry <;> cases hentry
          rfl
  · intro x h
    unfold boolFault? at h
    split at h <;> cases h
    next haccept =>
      obtain ⟨hfinite, hzero | hone⟩ := haccept
      · exact ⟨false, hbool.mpr ⟨hfinite, hzero⟩, hfinite, hzero⟩
      · exact ⟨true, hbool.mpr ⟨hfinite, hone⟩, hfinite, hone⟩

theorem sizeEntry_exact (kind : Kind) :
    Exact (sizeEntry kind) (sizeFault? kind) (fun n : ℕ => n) := by
  have hlarge {x : Binary64} {i : Int} (h : x.value = i) :
      (maxRangeLength : ℚ) < x.value ↔ (maxRangeLength : Int) < i := by
    rw [h]
    norm_cast
  constructor
  · intro x e h
    unfold sizeFault? at h
    unfold sizeEntry
    by_cases hbelow : x.IsNegativeNumber
    · rw [if_pos hbelow] at h
      cases h
      rw [if_pos (isBelowZero_iff.mpr hbelow)]
    rw [if_neg hbelow] at h
    rw [if_neg (mt isBelowZero_iff.mp hbelow)]
    cases hi : x.toInt? with
    | none =>
        have hwhole : ¬ x.IsWhole := by simp [isWhole_iff, hi]
        rw [if_pos hwhole] at h
        cases h
        rfl
    | some i =>
        obtain ⟨_, hvalue⟩ := toInt?_eq_some_iff.mp hi
        rw [if_neg (not_not_intro (isWhole_iff.mpr ⟨i, hi⟩))] at h
        split at h <;> cases h
        next h => exact if_pos ((hlarge hvalue).mp h)
  · intro x h
    unfold sizeFault? at h
    split at h <;> try cases h
    next hbelow =>
    split at h <;> try cases h
    next hwhole =>
    split at h <;> cases h
    next hsmall =>
      obtain ⟨i, hi⟩ := isWhole_iff.mp (not_not.mp hwhole)
      obtain ⟨hfinite, hvalue⟩ := toInt?_eq_some_iff.mp hi
      have hpos : 0 ≤ i := by
        have := (isBelowZero_iff_of_toInt? hi).not.mp (mt isBelowZero_iff.mp hbelow)
        omega
      obtain ⟨n, rfl⟩ := Int.eq_ofNat_of_zero_le hpos
      rw [hlarge hvalue] at hsmall
      refine ⟨n, sizeEntry_eq_ok.mpr ⟨hi, ?_⟩, hfinite, ?_⟩
      · omega
      · exact_mod_cast hvalue

theorem Exact.error_iff {entry : Binary64 → Except DomainFault α}
    {fault? : Binary64 → Option DomainFault} {number : α → ℚ} (h : Exact entry fault? number)
    {x : Binary64} {e : DomainFault} : entry x = .error e ↔ fault? x = some e := by
  refine ⟨fun he => ?_, h.refuses⟩
  cases hx : fault? x with
  | some e' =>
      rw [h.refuses hx] at he
      cases he
      rfl
  | none =>
      obtain ⟨y, hy, _⟩ := h.accepts hx
      rw [hy] at he
      cases he

end Entry

section Fill

variable {α : Type} {entry : Binary64 → Except DomainFault α}
  {fault? : Binary64 → Option DomainFault} {number : α → ℚ} {xs : List Binary64}
  {e : DomainFault}

theorem Exact.mapM_eq_error (h : Exact entry fault? number) (hxs : xs.findSome? fault? = some e) :
    xs.mapM entry = .error e := by
  induction xs with
  | nil => cases hxs
  | cons x xs ih =>
      rw [List.findSome?_cons] at hxs
      rw [List.mapM_cons, bind_eq_error]
      cases hx : fault? x with
      | some e' =>
          rw [hx] at hxs
          cases hxs
          exact .inl (h.refuses hx)
      | none =>
          rw [hx] at hxs
          obtain ⟨y, hy, _⟩ := h.accepts hx
          exact .inr ⟨y, hy, bind_eq_error.mpr (.inl (ih hxs))⟩

theorem Exact.exists_mapM_eq_ok (h : Exact entry fault? number)
    (hxs : xs.findSome? fault? = none) : ∃ ys, xs.mapM entry = .ok ys := by
  rw [List.findSome?_eq_none_iff] at hxs
  cases hys : xs.mapM entry with
  | ok ys => exact ⟨ys, rfl⟩
  | error e =>
      obtain ⟨x, hx, hentry⟩ := exists_of_mapM_eq_error hys
      obtain ⟨y, hy, _⟩ := h.accepts (hxs x hx)
      rw [hy] at hentry
      cases hentry

theorem Exact.value_eq (h : Exact entry fault? number) {x : Binary64} {y : α}
    (hy : entry x = .ok y) : number y = x.value := by
  cases hx : fault? x with
  | some e =>
      rw [h.refuses hx] at hy
      cases hy
  | none =>
      obtain ⟨z, hz, _, hvalue⟩ := h.accepts hx
      rw [hz] at hy
      cases hy
      exact hvalue.symm

theorem Exact.map_value_eq (h : Exact entry fault? number) {ys : List α}
    (hys : xs.map entry = ys.map .ok) : ys.map number = xs.map value := by
  induction xs generalizing ys with
  | nil =>
      rw [List.map_eq_nil_iff.mp hys.symm]
      rfl
  | cons x xs ih =>
      cases ys with
      | nil => cases hys
      | cons y ys =>
          simp only [List.map_cons, List.cons.injEq] at hys
          simp only [List.map_cons, h.value_eq hys.1, ih hys.2]

variable {role : Role} {s : Slots α} [BEq α] [Hashable α]

-- The clause is reported as it was read, with what is wrong with the first number refused.
theorem Exact.fillDistinct_eq_error (h : Exact entry fault? number)
    (hxs : xs.findSome? fault? = some e) (kind : Kind) (rest : List Item) :
    fillDistinct role kind entry s (.values xs :: rest) = .error ((Item.values xs).text, e) := by
  rw [fillDistinct, fill, h.mapM_eq_error hxs]
  rfl

variable [LawfulBEq α]

theorem Exact.exists_fillDistinct_eq_ok (h : Exact entry fault? number)
    (hxs : xs.findSome? fault? = none) (hne : xs ≠ []) (hs : s.get role = none) (kind : Kind)
    (rest : List Item) :
    ∃ s' ys, fillDistinct role kind entry s (.values xs :: rest) = .ok (s', rest) ∧
      s.Fills role ys s' ∧ Converts entry xs ys := by
  obtain ⟨zs, hzs⟩ := h.exists_mapM_eq_ok hxs
  have hconverts : Converts entry xs zs.eraseDups := ⟨zs, mapM_eq_ok.mp hzs, rfl⟩
  have hys : zs.eraseDups ≠ [] := by
    intro hnil
    rw [eraseDups_eq_nil.mp hnil, mapM_eq_ok] at hzs
    exact hne (List.map_eq_nil_iff.mp hzs)
  obtain ⟨s', hs'⟩ := s.exists_fills role hys
  exact ⟨s', _, fill_eq_ok.mpr ⟨xs, _, rfl, distinct_mapM_eq_ok.mpr hconverts, hs, hs'⟩, hs',
    hconverts⟩

end Fill

end Clause

end CallSuite
