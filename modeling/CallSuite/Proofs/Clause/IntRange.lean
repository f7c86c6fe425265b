import CallSuite.Proofs.Binary64.Rounded
import CallSuite.Proofs.Clause.Alignment
import CallSuite.Proofs.Clause.Entry

namespace CallSuite

open CallSuite.Text

theorem Text.isInt64_of_readInt64? {cs : List Char} {i : Int} (h : readInt64? cs = some i) :
    IsInt64 i := by
  obtain ⟨j, _, h⟩ := Option.bind_eq_some_iff.mp h
  obtain ⟨hj, h⟩ := Option.ite_none_right_eq_some.mp h
  exact Option.some.inj h ▸ hj

theorem Text.IsInt64.natAbs_le {i : Int} (h : IsInt64 i) : i.natAbs ≤ 2 ^ 63 := by
  obtain ⟨hlow, hhigh⟩ := h
  omega

theorem Text.isInt64_of_mem_range {lo hi : List Char} {a b i : Int} (ha : readInt64? lo = some a)
    (hb : readInt64? hi = some b) (hi : a ≤ i ∧ i < b + 1) : IsInt64 i := by
  obtain ⟨hlow, _⟩ := isInt64_of_readInt64? ha
  obtain ⟨_, hhigh⟩ := isInt64_of_readInt64? hb
  exact ⟨by omega, by omega⟩

namespace TypeTree

open CallSuite.Binary64 CallSuite.Clause

-- The text gives an int with these slots the entries, and leaves its other slot alone.
def GivesInts (s : Slots Int) (role : Role) (text : String) (ys : List Int) : Prop :=
  ∃ s', s.Fills role ys s' ∧ decorate (.int s) role text = (.int s', .ok ())

section

variable {s : Slots Int} {role : Role} {text : String} {xs : List Binary64} {ys zs : List Int}

theorem GivesInts.unique (hys : GivesInts s role text ys) (hzs : GivesInts s role text zs) :
    ys = zs := by
  obtain ⟨s', hs', hdecorate⟩ := hys
  obtain ⟨s'', hs'', hdecorate'⟩ := hzs
  rw [hdecorate] at hdecorate'
  cases hdecorate'
  obtain ⟨d, rfl, hd⟩ := hs'.exists_get
  obtain ⟨d', rfl, hd'⟩ := hs''.exists_get
  rw [hd, Option.some.injEq] at hd'
  rw [hd']

theorem givesInts_of_entries (hs : s.get role = none) (hne : ys ≠ [])
    (h : Entries intEntry (tokens text) ys) : GivesInts s role text ys := by
  obtain ⟨s', hs'⟩ := s.exists_fills role hne
  have hunfilled : Tree.Unfilled role (.int s) := hs
  exact ⟨s', hs', decorate_of_written hunfilled (.int h hs')⟩

-- The first number that is no entry is reported, and nothing is stored.
theorem decorate_int_of_denotes_of_error {fault : DomainFault} (h : Denotes (tokens text) xs)
    (herror : xs.mapM intEntry = .error fault) :
    decorate (.int s) role text =
      (.int s, .error ⟨text, role, (Item.values xs).text, fault⟩) := by
  have hitems : itemsOf (tokens text) = .ok [.values xs] := h.foldrM (by simp)
  rw [decorate_of_scan hitems]
  simp only [align, fillDistinct, fill, herror]
  rfl

end

section Range

variable {s : Slots Int} {role : Role} {text lo hi : String} {a b i : Int}

theorem intEntry_ofInt (hi : IsInt64 i) : intEntry (ofInt i) =
    if i < 2 ^ 63 - 512 then .ok (rounded i) else .error (.notIntegral .int (ofInt i)) := by
  rw [intEntry, toInt?_ofInt_rounded hi.natAbs_le]
  by_cases htop : i < 2 ^ 63 - 512
  · exact (if_pos (isInt64_rounded hi htop)).trans (if_pos htop).symm
  · have hlarge := rounded_eq_two_pow hi (Int.not_lt.mp htop)
    exact (if_neg (by rw [hlarge]; decide)).trans (if_neg htop).symm

variable (htokens : tokens text = [.word lo, .delim '~', .word hi])
  (ha : readInt64? lo.toList = some a) (hb : readInt64? hi.toList = some b) (hle : a ≤ b)
  (hlength : b - a + 1 ≤ maxRangeLength)

include htokens ha hb hle hlength

theorem rangeClause_tokens : RangeClause (tokens text) ((Int.range a (b + 1)).map ofInt) :=
  htokens ▸ .mk ha hb hle hlength

theorem givesInts_rounded (hs : s.get role = none) (htop : b < 2 ^ 63 - 512) :
    GivesInts s role text ((Int.range a (b + 1)).map rounded).eraseDups := by
  have hrange := rangeClause_tokens htokens ha hb hle hlength
  refine givesInts_of_entries hs (fun hnil => ?_) ⟨_, .inr hrange, _, ?_, rfl⟩
  · have hmem : a ∈ Int.range a (b + 1) := Int.mem_range_iff.mpr (by omega)
    rw [eraseDups_eq_nil, List.map_eq_nil_iff] at hnil
    rw [hnil] at hmem
    cases hmem
  · rw [List.map_map, List.map_map]
    refine List.map_congr_left fun i hi => ?_
    rw [Int.mem_range_iff] at hi
    exact (intEntry_ofInt (isInt64_of_mem_range ha hb hi)).trans (if_pos (by omega))

-- The last integers of 64 bits are rounded to one that is none.
theorem exists_decorate_eq_error (htop : 2 ^ 63 - 512 ≤ b) :
    ∃ token x, x.toInt? = some (2 ^ 63) ∧ decorate (.int s) role text =
      (.int s, .error ⟨text, role, token, .notIntegral .int x⟩) := by
  have hrange := rangeClause_tokens htokens ha hb hle hlength
  cases hentries : ((Int.range a (b + 1)).map ofInt).mapM intEntry with
  | ok ys =>
      have hlast : b ∈ Int.range a (b + 1) := Int.mem_range_iff.mpr (by omega)
      have hmem : intEntry (ofInt b) ∈ ys.map Except.ok :=
        mapM_eq_ok.mp hentries ▸ List.mem_map_of_mem (List.mem_map_of_mem hlast)
      obtain ⟨y, _, hy⟩ := List.mem_map.mp hmem
      rw [intEntry_ofInt (isInt64_of_readInt64? hb), if_neg (by omega)] at hy
      cases hy
  | error fault =>
      obtain ⟨_, hx, hfault⟩ := exists_of_mapM_eq_error hentries
      obtain ⟨i, hi, rfl⟩ := List.mem_map.mp hx
      rw [Int.mem_range_iff] at hi
      have hint := isInt64_of_mem_range ha hb hi
      rw [intEntry_ofInt hint] at hfault
      split at hfault
      next => cases hfault
      next htop =>
        cases hfault
        refine ⟨_, _, ?_, decorate_int_of_denotes_of_error (.range hrange) hentries⟩
        rw [toInt?_ofInt_rounded hint.natAbs_le, rounded_eq_two_pow hint (by omega)]

theorem givesInts_range_iff (hs : s.get role = none) :
    GivesInts s role text (Int.range a (b + 1)) ↔ ∀ i, a ≤ i → i ≤ b → rounded i = i := by
  have hint := isInt64_of_readInt64? hb
  have hself : (Int.range a (b + 1)).map rounded = Int.range a (b + 1) ↔
      ∀ i, a ≤ i → i ≤ b → rounded i = i := by
    have hid := List.map_inj_left (l := Int.range a (b + 1)) (f := rounded) (g := id)
    rw [List.map_id] at hid
    simp only [hid, Int.mem_range_iff, Int.lt_add_one_iff, and_imp, id]
  rw [← hself]
  by_cases htop : b < 2 ^ 63 - 512
  · have hgives := givesInts_rounded htokens ha hb hle hlength hs htop
    constructor
    · intro hrange
      have heq := hgives.unique hrange
      have hnodup : ((Int.range a (b + 1)).map rounded).Nodup := by
        refine nodup_of_length_le_eraseDups ?_
        rw [heq, List.length_map]
      rwa [eraseDups_eq_self hnodup] at heq
    · intro hmap
      rwa [hmap, eraseDups_eq_self (nodup_range a (b + 1))] at hgives
  · refine iff_of_false ?_ fun hmap => ?_
    · rintro ⟨s', _, hok⟩
      obtain ⟨token, x, _, herror⟩ := exists_decorate_eq_error htokens ha hb hle hlength (by omega)
      rw [herror] at hok
      cases hok
    · have hlast := hself.mp hmap b hle (Int.le_refl b)
      have hhigh := hint.2
      rw [rounded_eq_two_pow hint (by omega)] at hlast
      omega

-- A range gives an int the integers that those of the range are rounded to. These are the integers
-- of the range themselves if all of them are double-precision numbers, as they are up to 2 ^ 53.
theorem decorate_int_range (hs : s.get role = none) :
    (b < 2 ^ 63 - 512 →
      GivesInts s role text ((Int.range a (b + 1)).map rounded).eraseDups) ∧
    (2 ^ 63 - 512 ≤ b → ∃ token x, x.toInt? = some (2 ^ 63) ∧ decorate (.int s) role text =
      (.int s, .error ⟨text, role, token, .notIntegral .int x⟩)) ∧
    (GivesInts s role text (Int.range a (b + 1)) ↔ ∀ i, a ≤ i → i ≤ b → rounded i = i) ∧
    (-2 ^ 53 ≤ a → b ≤ 2 ^ 53 → GivesInts s role text (Int.range a (b + 1))) := by
  have hiff := givesInts_range_iff htokens ha hb hle hlength hs
  refine ⟨givesInts_rounded htokens ha hb hle hlength hs,
    exists_decorate_eq_error htokens ha hb hle hlength, hiff, fun hlow hhigh => ?_⟩
  exact hiff.mpr fun i hi hi' => rounded_eq_self (by omega)

end Range

-- Up to 2 ^ 53 no integer is lost.
theorem givesInts_upToLastExact : (Slots.empty : Slots Int).get .random = none ∧
    GivesInts .empty .random "9007199254740990~9007199254740992"
      [9007199254740990, 9007199254740991, 9007199254740992] := by
  have hempty : (Slots.empty : Slots Int).get .random = none := rfl
  have htokens : tokens "9007199254740990~9007199254740992" =
      [.word "9007199254740990", .delim '~', .word "9007199254740992"] := by cbv
  have hlo : readInt64? "9007199254740990".toList = some 9007199254740990 := by decide +kernel
  have hhi : readInt64? "9007199254740992".toList = some 9007199254740992 := by decide +kernel
  obtain ⟨_, _, _, hexact⟩ :=
    decorate_int_range htokens hlo hhi (by decide) (by decide) hempty
  exact ⟨hempty, hexact (by decide) (by decide)⟩

-- The next integer is rounded to the one before it, and the last integer of 64 bits is refused.
theorem range_loses_integers :
    GivesInts .empty .exhaustive "9007199254740992~9007199254740993" [9007199254740992] ∧
      ¬ GivesInts .empty .exhaustive "9007199254740992~9007199254740993"
        [9007199254740992, 9007199254740993] ∧
      ¬ GivesInts .empty .exhaustive "9223372036854775807~9223372036854775807"
        [9223372036854775807] := by
  have htokens : tokens "9007199254740992~9007199254740993" =
      [.word "9007199254740992", .delim '~', .word "9007199254740993"] := by cbv
  have hlo : readInt64? "9007199254740992".toList = some 9007199254740992 := by decide +kernel
  have hhi : readInt64? "9007199254740993".toList = some 9007199254740993 := by decide +kernel
  have hrounded : ((Int.range 9007199254740992 (9007199254740993 + 1)).map rounded).eraseDups =
      [9007199254740992] := by decide +kernel
  have hgives := givesInts_rounded (s := .empty) htokens hlo hhi (by decide) (by decide)
    (Slots.get_empty .exhaustive) (by decide)
  rw [hrounded] at hgives
  have hlastTokens : tokens "9223372036854775807~9223372036854775807" =
      [.word "9223372036854775807", .delim '~', .word "9223372036854775807"] := by cbv
  have hlast : readInt64? "9223372036854775807".toList = some 9223372036854775807 := by
    decide +kernel
  obtain ⟨token, x, _, herror⟩ := exists_decorate_eq_error (s := .empty) hlastTokens hlast hlast
    (by decide) (by decide) (by decide)
  refine ⟨hgives, fun hall => ?_, ?_⟩
  · cases hgives.unique hall
  · rintro ⟨s', _, hok⟩
    rw [herror] at hok
    cases hok

end TypeTree

end CallSuite
