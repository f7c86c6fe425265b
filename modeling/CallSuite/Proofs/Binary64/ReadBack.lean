import CallSuite.Binary64.Layout
import CallSuite.Binary64.Literal
import CallSuite.Proofs.Binary64.Exact
import CallSuite.Proofs.Text.Numeral

namespace CallSuite.Binary64

open CallSuite.Text

section Decimal

variable {whole fraction rest : List Char} {e : Int}

theorem takeWhile_eq_nil_of_head {p : Char → Bool} (h : ∀ c ∈ rest.head?, p c = false) :
    rest.takeWhile p = [] ∧ rest.dropWhile p = rest := by
  cases rest with
  | nil => exact ⟨rfl, rfl⟩
  | cons c cs => simp [h c (by simp)]

theorem readDecimal?_pointed (hwhole : ∀ c ∈ whole, c.isDigit) (hne : whole ≠ [])
    (hfraction : ∀ c ∈ fraction, c.isDigit) (hrest : ∀ c ∈ rest.head?, c.isDigit = false)
    (he : readExponent? rest = some e) :
    readDecimal? (whole ++ '.' :: (fraction ++ rest)) =
      some (natOfDigits (whole ++ fraction), e - fraction.length) := by
  obtain ⟨htake, hdrop⟩ := takeWhile_eq_nil_of_head hrest
  have hpoint : '.'.isDigit = false := rfl
  simp only [readDecimal?, List.takeWhile_append_of_pos hwhole, List.dropWhile_append_of_pos hwhole,
    List.takeWhile_append_of_pos hfraction, List.dropWhile_append_of_pos hfraction, htake, hdrop,
    List.takeWhile_cons, List.dropWhile_cons, hpoint, Bool.false_eq_true, if_false,
    List.append_nil, hne, false_and, he]
  rfl

theorem readDecimal?_point (hwhole : ∀ c ∈ whole, c.isDigit) (hne : whole ≠ [])
    (hfraction : ∀ c ∈ fraction, c.isDigit) :
    readDecimal? (whole ++ '.' :: fraction) =
      some (natOfDigits (whole ++ fraction), -(fraction.length : Int)) := by
  have hend : ∀ c ∈ ([] : List Char).head?, c.isDigit = false := by simp
  have hread := readDecimal?_pointed hwhole hne hfraction hend rfl
  rwa [List.append_nil, Int.zero_sub] at hread

theorem readExponent?_cons (h : readInt? rest = some e) : readExponent? ('e' :: rest) = some e := by
  simpa [readExponent?] using h

theorem readDecimal?_whole (hwhole : ∀ c ∈ whole, c.isDigit) (hne : whole ≠ [])
    (he : readInt? rest = some e) :
    readDecimal? (whole ++ 'e' :: rest) = some (natOfDigits whole, e) := by
  have hletter : 'e'.isDigit = false := rfl
  simp only [readDecimal?, List.takeWhile_append_of_pos hwhole, List.dropWhile_append_of_pos hwhole,
    List.takeWhile_cons, List.dropWhile_cons, hletter, Bool.false_eq_true, if_false,
    List.append_nil, hne, false_and]
  simp [readExponent?_cons he]

end Decimal

section Layout

variable {d : Decimal}

theorem digitChars_ne_nil (d : Decimal) : d.digitChars ≠ [] := Nat.toDigits_ne_nil

theorem isDigit_digitChars (d : Decimal) : ∀ c ∈ d.digitChars, c.isDigit :=
  isDigit_toDigits d.digits

theorem natOfDigits_digitChars (d : Decimal) : natOfDigits d.digitChars = d.digits :=
  natOfDigits_toDigits d.digits

theorem isDigit_zeros (k : Nat) : ∀ c ∈ List.replicate k '0', c.isDigit := by
  intro c hc
  rw [List.eq_of_mem_replicate hc]
  rfl

-- A sign and digits, which are as many as the width asks for.
theorem exponentText_eq (width : Nat) (e : Int) : ∃ ds,
    Decimal.exponentText width e = (if e < 0 then '-' else '+') :: ds ∧ (∀ c ∈ ds, c.isDigit) ∧
      ds ≠ [] ∧ width ≤ ds.length ∧ natOfDigits ds = e.natAbs := by
  let zeros := List.replicate (width - (Nat.toDigits 10 e.natAbs).length) '0'
  refine ⟨zeros ++ Nat.toDigits 10 e.natAbs, rfl,
    List.forall_mem_append.mpr ⟨isDigit_zeros _, isDigit_toDigits _⟩,
    List.append_ne_nil_of_right_ne_nil _ Nat.toDigits_ne_nil, ?_, ?_⟩
  · rw [List.length_append, List.length_replicate]
    omega
  · rw [natOfDigits_zeros_append, natOfDigits_toDigits]

theorem readInt?_exponentText (width : Nat) (e : Int) :
    readInt? (Decimal.exponentText width e) = some e := by
  obtain ⟨ds, htext, hdigits, hne, _, hvalue⟩ := exponentText_eq width e
  have hread := readInt?_signed (decide (e < 0)) hne hdigits
  simp only [decide_eq_true_eq] at hread
  rw [htext, hread, hvalue, applySign]
  by_cases he : e < 0
  · simp only [he, decide_true, if_true, Option.some.injEq]
    omega
  · simp only [he, decide_false, Bool.false_eq_true, if_false, Option.some.injEq]
    omega

theorem readDecimal?_scientific (width : Nat) (d : Decimal) :
    readDecimal? (d.scientific width) = some (d.digits, d.exponent) := by
  have hexponent := readInt?_exponentText width d.place
  have hdigits := isDigit_digitChars d
  have hvalue := natOfDigits_digitChars d
  unfold Decimal.scientific Decimal.mantissa
  split
  next c c' cs hchars =>
    rw [hchars] at hdigits hvalue
    obtain ⟨hc, hcs⟩ := List.forall_mem_cons.mp hdigits
    have hwhole : ∀ x ∈ [c], x.isDigit := by simpa using hc
    have hletter : ∀ x ∈ ('e' :: Decimal.exponentText width d.place).head?, x.isDigit = false := by
      simp only [List.head?_cons, Option.mem_some_iff]
      rintro x rfl
      rfl
    have hread := readDecimal?_pointed hwhole (by simp) hcs hletter (readExponent?_cons hexponent)
    have hplace : d.place - (c' :: cs).length = d.exponent := by
      rw [Decimal.place, hchars]
      simp
    rw [hplace, show [c] ++ c' :: cs = c :: c' :: cs from rfl, hvalue] at hread
    exact hread
  next hshort =>
    have hlength : d.digitChars.length ≤ 1 := by
      rcases hchars : d.digitChars with _ | ⟨c, _ | ⟨c', cs⟩⟩
      · simp
      · simp
      · exact absurd hchars (hshort c c' cs)
    have hplace : d.place = d.exponent := by
      rw [Decimal.place]
      omega
    have hread := readDecimal?_whole hdigits (digitChars_ne_nil d) hexponent
    rw [hvalue] at hread
    exact hread.trans (by rw [hplace])

-- The digits on both sides of the point, filled up with zeros in front.
theorem exists_positional {e : Nat} (h : d.exponent = .negSucc e) :
    ∃ whole fraction, d.positional = whole ++ '.' :: fraction ∧
      (∀ c ∈ whole ++ fraction, c.isDigit) ∧ natOfDigits (whole ++ fraction) = d.digits ∧
      whole ≠ [] ∧ fraction.length = e + 1 := by
  let ds := List.replicate (e + 2 - d.digitChars.length) '0' ++ d.digitChars
  have hlength : e + 2 ≤ ds.length := by
    simp only [ds, List.length_append, List.length_replicate]
    omega
  refine ⟨ds.take (ds.length - (e + 1)), ds.drop (ds.length - (e + 1)), ?_, ?_, ?_, ?_, ?_⟩
  · rw [Decimal.positional, h]
  · rw [List.take_append_drop]
    exact List.forall_mem_append.mpr ⟨isDigit_zeros _, isDigit_digitChars d⟩
  · rw [List.take_append_drop, natOfDigits_zeros_append, natOfDigits_digitChars]
  · rw [← List.length_pos_iff, List.length_take]
    omega
  · rw [List.length_drop]
    omega

theorem readDecimal?_positional {e : Nat} (h : d.exponent = .negSucc e) :
    readDecimal? d.positional = some (d.digits, .negSucc e) := by
  obtain ⟨whole, fraction, hpositional, hdigits, hvalue, hne, hlength⟩ := exists_positional h
  obtain ⟨hwhole, hfraction⟩ := List.forall_mem_append.mp hdigits
  rw [hpositional, readDecimal?_point hwhole hne hfraction, hvalue, hlength]
  rfl

theorem positional_eq {e : Nat} (h : d.exponent = .ofNat e) :
    d.positional = d.digitChars ++ List.replicate e '0' ∧ d.positional ≠ [] ∧
      ∀ c ∈ d.positional, c.isDigit := by
  have heq : d.positional = d.digitChars ++ List.replicate e '0' := by rw [Decimal.positional, h]
  rw [heq]
  exact ⟨rfl, List.append_ne_nil_of_left_ne_nil (digitChars_ne_nil d) _,
    List.forall_mem_append.mpr ⟨isDigit_digitChars d, isDigit_zeros e⟩⟩

theorem readDecimal?_point_zero {ds : List Char} (hds : ∀ c ∈ ds, c.isDigit) (hne : ds ≠ []) :
    readDecimal? (ds ++ ['.', '0']) = some (natOfDigits ds * 10, .negSucc 0) := by
  have hzero : ∀ c ∈ ['0'], c.isDigit := by
    intro c hc
    rw [List.mem_singleton.mp hc]
    rfl
  have hread := readDecimal?_point hds hne hzero
  have hvalue : natOfDigits (ds ++ ['0']) = natOfDigits ds * 10 := natOfDigits_append_zeros ds 1
  rw [hvalue] at hread
  exact hread

end Layout

section Magnitude

variable {cs : List Char} {digits : Nat} {exponent : Int} {x : Binary64}

-- What was read: digits, maybe a point with more of them, and what is left for the exponent.
theorem exists_of_readDecimal? (h : readDecimal? cs = some (digits, exponent)) :
    ∃ whole fraction rest e, (cs = whole ++ '.' :: (fraction ++ rest) ∨
        fraction = [] ∧ cs = whole ++ rest) ∧ (∀ c ∈ whole ++ fraction, c.isDigit) ∧
      ¬(whole = [] ∧ fraction = []) ∧ readExponent? rest = some e := by
  have hcs := (List.takeWhile_append_dropWhile (p := Char.isDigit) (l := cs)).symm
  have hwhole : ∀ c ∈ cs.takeWhile Char.isDigit, c.isDigit := List.all_eq_true.mp List.all_takeWhile
  unfold readDecimal? at h
  dsimp only at h
  generalize cs.takeWhile Char.isDigit = whole at h hcs hwhole
  generalize cs.dropWhile Char.isDigit = after at h hcs
  split at h
  next tail =>
    have htail := (List.takeWhile_append_dropWhile (p := Char.isDigit) (l := tail)).symm
    have hfraction : ∀ c ∈ tail.takeWhile Char.isDigit, c.isDigit :=
      List.all_eq_true.mp List.all_takeWhile
    dsimp only at h
    split at h
    next => cases h
    next hne =>
      obtain ⟨e, he, _⟩ := Option.bind_eq_some_iff.mp h
      exact ⟨whole, _, _, e, .inl (htail ▸ hcs), List.forall_mem_append.mpr ⟨hwhole, hfraction⟩,
        hne, he⟩
  next =>
    dsimp only at h
    split at h
    next => cases h
    next hne =>
      obtain ⟨e, he, _⟩ := Option.bind_eq_some_iff.mp h
      exact ⟨whole, [], after, e, .inr ⟨rfl, hcs⟩, by simpa using hwhole, hne, he⟩

theorem exists_head_of_readDecimal? (h : readDecimal? cs = some (digits, exponent)) :
    ∃ c ∈ cs.head?, c.isDigit ∨ c = '.' := by
  obtain ⟨whole, fraction, rest, e, hcs, hdigits, hne, _⟩ := exists_of_readDecimal? h
  cases whole with
  | nil =>
      obtain rfl | ⟨rfl, _⟩ := hcs
      · exact ⟨'.', rfl, .inr rfl⟩
      · exact absurd ⟨rfl, rfl⟩ hne
  | cons c whole =>
      refine ⟨c, ?_, .inl (hdigits c (by simp))⟩
      obtain rfl | ⟨_, rfl⟩ := hcs <;> rfl

theorem isNumeralChar_of_readDecimal? (h : readDecimal? cs = some (digits, exponent)) :
    ∀ c ∈ cs, IsNumeralChar c := by
  obtain ⟨whole, fraction, rest, e, hcs, hdigits, _, hexponent⟩ := exists_of_readDecimal? h
  have hrest : ∀ c ∈ rest, IsNumeralChar c := by
    unfold readExponent? at hexponent
    split at hexponent
    next => simp
    next letter cs =>
      split at hexponent
      next hletter =>
        refine List.forall_mem_cons.mpr ⟨?_, isNumeralChar_of_readInt? hexponent⟩
        rcases hletter with rfl | rfl <;> rfl
      next => cases hexponent
  have hnumber := fun c hc => isNumeralChar_of_isDigit (hdigits c hc)
  obtain ⟨hwhole, hfraction⟩ := List.forall_mem_append.mp hnumber
  obtain rfl | ⟨_, rfl⟩ := hcs
  · exact List.forall_mem_append.mpr ⟨hwhole, List.forall_mem_cons.mpr
      ⟨rfl, List.forall_mem_append.mpr ⟨hfraction, hrest⟩⟩⟩
  · exact List.forall_mem_append.mpr ⟨hwhole, hrest⟩

theorem toLower_of_not_isUpper {c : Char} (h : ¬ c.isUpper) : c.toLower = c :=
  dif_neg fun hupper => h (isUpper_iff.mpr hupper)

theorem toLower_eq_self {c : Char} (h : c.isDigit ∨ c = '.') : c.toLower = c := by
  obtain h | rfl := h
  · have hle : c.val ≤ '9'.val := by
      simp only [Char.isDigit, Bool.and_eq_true, decide_eq_true_eq] at h
      exact h.2
    refine toLower_of_not_isUpper fun hupper => ?_
    exact absurd (UInt32.le_trans (isUpper_iff.mp hupper).1 hle) (by decide)
  · rfl

-- The words for what is no finite number start with a letter.
theorem readMagnitude?_of_readDecimal? (h : readDecimal? cs = some (digits, exponent)) :
    readMagnitude? cs = some (roundDecimal digits exponent) := by
  obtain ⟨c, hc, hchar⟩ := exists_head_of_readDecimal? h
  have hword {word : String} {l : Char} (hl : word.toList.head? = some l)
      (hletter : ¬(l.isDigit ∨ l = '.')) : String.ofList (cs.map Char.toLower) ≠ word := by
    rintro rfl
    rw [String.toList_ofList, List.head?_map, hc, Option.map_some, toLower_eq_self hchar] at hl
    exact hletter (Option.some.inj hl ▸ hchar)
  unfold readMagnitude?
  split
  next heq => exact absurd heq (hword rfl (by decide))
  next heq => exact absurd heq (hword rfl (by decide))
  next heq => exact absurd heq (hword rfl (by decide))
  next =>
    rw [h]
    rfl

theorem isAlpha_of_toLower {c : Char} (h : c.toLower.isLower) : c.isAlpha := by
  by_cases hupper : c.isUpper
  · exact isAlpha_iff.mpr (.inl hupper)
  · rw [toLower_of_not_isUpper hupper] at h
    exact isAlpha_iff.mpr (.inr h)

theorem isNumeralChar_of_readMagnitude? {m : Nat} (h : readMagnitude? cs = some m) :
    ∀ c ∈ cs, IsNumeralChar c := by
  have hword {word : String} (heq : String.ofList (cs.map Char.toLower) = word)
      (hlower : word.toList.all Char.isLower) : ∀ c ∈ cs, IsNumeralChar c := by
    subst heq
    rw [String.toList_ofList, List.all_eq_true] at hlower
    intro c hc
    have halpha := isAlpha_of_toLower (hlower _ (List.mem_map_of_mem hc))
    simp [IsNumeralChar, Char.isAlphanum, halpha]
  unfold readMagnitude? at h
  split at h
  next heq => exact hword heq (by decide)
  next heq => exact hword heq (by decide)
  next heq => exact hword heq (by decide)
  next =>
    obtain ⟨⟨digits, exponent⟩, hread, _⟩ := Option.map_eq_some_iff.mp h
    exact isNumeralChar_of_readDecimal? hread

-- A text that denotes a number has neither blanks nor delimiters in it.
theorem isNumeralChar_of_read? (h : read? cs = some x) : ∀ c ∈ cs, IsNumeralChar c := by
  obtain ⟨m, hm, _⟩ := Option.map_eq_some_iff.mp h
  intro c hc
  exact (mem_splitSign hc).elim isNumeralChar_of_sign (isNumeralChar_of_readMagnitude? hm c)

theorem ofMagnitude_magnitude (x : Binary64) : ofMagnitude x.isNegative x.magnitude = x := by
  have hlt := x.bits.toNat_lt
  have hnat : (if x.isNegative then signBit + x.magnitude else x.magnitude) = x.bits.toNat := by
    unfold isNegative magnitude
    by_cases hneg : signBit ≤ x.bits.toNat
    · simp only [hneg, decide_true, if_true]
      simp only [signBit] at *
      omega
    · simp only [hneg, decide_false, Bool.false_eq_true, if_false]
      simp only [signBit] at *
      omega
  rw [ofMagnitude, hnat]
  exact congrArg Binary64.mk (UInt64.ofNat_toNat)

-- A sign in front of what denotes the magnitude.
theorem read?_signed (hcs : readMagnitude? cs = some x.magnitude)
    (hhead : ∀ c ∈ cs.head?, c ≠ '-' ∧ c ≠ '+') : read? (x.signed cs).toList = some x := by
  have hsign : splitSign (x.signed cs).toList = (x.isNegative, cs) := by
    rw [signed, String.toList_ofList]
    cases x.isNegative with
    | true => rfl
    | false =>
        simp only [Bool.false_eq_true, if_false]
        unfold splitSign
        split
        next => exact absurd rfl (hhead '-' rfl).1
        next => exact absurd rfl (hhead '+' rfl).2
        next => rfl
  rw [read?, hsign]
  simp only [hcs, Option.map_some, ofMagnitude_magnitude]

theorem read?_signed_of_readDecimal? (h : readDecimal? cs = some (digits, exponent))
    (hround : roundDecimal digits exponent = x.magnitude) :
    read? (x.signed cs).toList = some x := by
  obtain ⟨c, hc, hchar⟩ := exists_head_of_readDecimal? h
  refine read?_signed (hround ▸ readMagnitude?_of_readDecimal? h) fun c' hc' => ?_
  obtain rfl : c = c' := Option.some.inj (hc.symm.trans hc')
  constructor <;>
    (rintro rfl
     exact absurd hchar (by decide))

-- A whole number of tenths.
theorem roundDecimal_tenths (n : Nat) : roundDecimal (n * 10) (.negSucc 0) = roundRatio n 1 := by
  rw [roundDecimal_negSucc (by omega)]
  exact roundRatio_mul_right n 1 (by decide)

theorem roundRatio_of_toInt? {i : Int} (hfinite : x.isFinite) (h : x.toInt? = some i) :
    roundRatio i.natAbs 1 = x.magnitude := by
  unfold toInt? at h
  split at h
  next hwhole =>
    have hunits : i.natAbs * unitsPerOne = x.units := by
      have hdiv := Nat.div_mul_cancel (Nat.dvd_of_mod_eq_zero hwhole.2)
      have habs : i.natAbs = x.units / unitsPerOne := by
        rw [← Option.some.inj h]
        generalize x.units / unitsPerOne = n
        split <;> omega
      rw [habs, hdiv]
    rw [roundRatio, hunits, units, roundUnits_unitsOf (by simpa [isFinite] using hfinite)]
  next => cases h

theorem roundRatio_of_roundDecimal {e : Nat} (h : roundDecimal digits (.ofNat e) < infinity) :
    roundRatio (digits * 10 ^ e) 1 = roundDecimal digits (.ofNat e) := by
  unfold roundDecimal at h ⊢
  dsimp only at h ⊢
  split at h
  next hzero =>
    subst hzero
    rw [if_pos rfl, Nat.zero_mul]
    rfl
  next hzero =>
    rw [if_neg hzero]
    split at h
    next => exact absurd h (Nat.lt_irrefl _)
    next hle =>
      rw [if_neg hle]
      rfl

-- The digits may be followed by zeros and by a last zero behind the point.
theorem exists_readDecimal?_pointed {d : Decimal}
    (h : roundDecimal d.digits d.exponent < infinity) :
    ∃ digits exponent, readDecimal? d.pointed = some (digits, exponent) ∧
      roundDecimal digits exponent = roundDecimal d.digits d.exponent := by
  unfold Decimal.pointed
  cases hexponent : d.exponent with
  | ofNat e =>
      rw [hexponent] at h
      obtain ⟨hpositional, hne, hdigits⟩ := positional_eq hexponent
      have hnonneg : ¬Int.ofNat e < 0 := Int.not_lt.mpr (Int.natCast_nonneg e)
      rw [if_neg hnonneg]
      refine ⟨_, _, readDecimal?_point_zero hdigits hne, ?_⟩
      rw [roundDecimal_tenths, hpositional, natOfDigits_append_zeros, natOfDigits_digitChars,
        roundRatio_of_roundDecimal h]
  | negSucc e =>
      rw [if_pos (Int.negSucc_lt_zero e)]
      exact ⟨_, _, readDecimal?_positional hexponent, rfl⟩

end Magnitude

-- What is written for a number denotes it: the shortest digits do, and so do all digits.
theorem read?_literal {x : Binary64} (h : x.isNaN = false) : read? x.literal.toList = some x := by
  unfold literal
  rw [h, if_neg (by simp)]
  split
  next hinfinite =>
    have hmagnitude : x.magnitude = infinity := by
      simp only [isNaN, isFinite, decide_eq_false_iff_not, Bool.not_eq_true',
        Nat.not_lt] at h hinfinite
      exact Nat.le_antisymm h hinfinite
    refine read?_signed ?_ (by simp)
    rw [hmagnitude]
    decide
  next hfinite =>
    have hfinite : x.isFinite := by simpa using hfinite
    have hlt : x.magnitude < infinity := by simpa [isFinite] using hfinite
    have hreads := of_decide_eq_true (shortest_reads .up hlt)
    split
    next => exact read?_signed_of_readDecimal? (readDecimal?_scientific 2 _) hreads
    next =>
      split
      next i hi =>
        refine read?_signed_of_readDecimal?
          (readDecimal?_point_zero (isDigit_toDigits _) Nat.toDigits_ne_nil) ?_
        rw [natOfDigits_toDigits, roundDecimal_tenths, roundRatio_of_toInt? hfinite hi]
      next =>
        obtain ⟨digits, exponent, hread, hround⟩ := exists_readDecimal?_pointed (hreads ▸ hlt)
        exact read?_signed_of_readDecimal? hread (hround.trans hreads)

end CallSuite.Binary64
