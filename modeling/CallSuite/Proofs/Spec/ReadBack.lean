import CallSuite.Proofs.Json.ReadBack
import CallSuite.Proofs.Scanning
import CallSuite.Spec.OfJson

namespace CallSuite.Spec

open Json JsonNumber

-- What a specification is written with.
def members (s : Spec) : List (String × Json) :=
  [("fname", .str s.fname), ("types", .array (s.types.map .str)),
    ("exhaustive domain", .array (s.exhaustive.map .str)),
    ("random domain", .array (s.random.map .str)), ("num random", .number s.numRandom)]

theorem toJson_eq (s : Spec) : s.toJson = .object s.members := rfl

theorem nodup_keys : keys.Nodup := by decide

theorem perm_keys {s : Spec} {members : List (String × Json)} (h : members.Perm s.members) :
    (members.map Prod.fst).Perm keys := h.map Prod.fst

theorem asStrings_map_str (xs : List String) : asStrings (.array (xs.map .str)) = .ok xs := by
  refine mapM_eq_ok.mpr ?_
  rw [List.map_map]
  rfl

-- Where no key is given twice, each has the value that stands beside it.
theorem valueAt_of_mem {members : List (String × Json)} (h : (members.map Prod.fst).Nodup)
    {key : String} {v : Json} (hmem : (key, v) ∈ members) : valueAt members key = v := by
  induction members with
  | nil => cases hmem
  | cons m members ih =>
      obtain ⟨first, _⟩ := m
      obtain ⟨hfirst, hmembers⟩ := List.nodup_cons.mp h
      rcases List.mem_cons.mp hmem with heq | hrest
      · cases heq
        simp [valueAt]
      · have hne : key ≠ first := by
          rintro rfl
          exact hfirst (List.mem_map.mpr ⟨(key, v), hrest, rfl⟩)
        have hbeq : (key == first) = false := beq_false_of_ne hne
        have ih := ih hmembers hrest
        simpa [valueAt, List.lookup_cons, hbeq] using ih

theorem ofMembers_of_perm {s : Spec} {members : List (String × Json)}
    (h : members.Perm s.members) : ofMembers members = .ok s := by
  have hkeys := perm_keys h
  have hmissing : keys.filter (· ∉ members.map (·.1)) = [] :=
    List.filter_eq_nil_iff.mpr fun key hkey => by simpa using hkeys.mem_iff.mpr hkey
  have hunexpected : (members.map (·.1)).filter (· ∉ keys) = [] :=
    List.filter_eq_nil_iff.mpr fun key hkey => by simpa using hkeys.mem_iff.mp hkey
  have hvalues : ∀ m ∈ s.members, valueAt members m.1 = m.2 := fun m hm =>
    valueAt_of_mem (hkeys.nodup_iff.mpr nodup_keys) (h.mem_iff.mpr hm)
  simp only [Spec.members, List.forall_mem_cons] at hvalues
  obtain ⟨hfname, htypes, hexhaustive, hrandom, hnum, _⟩ := hvalues
  rw [ofMembers, hmissing, hunexpected, if_pos ⟨rfl, rfl⟩, hfname, htypes, hexhaustive, hrandom,
    hnum, asStrings_map_str, asStrings_map_str, asStrings_map_str]
  rfl

theorem exact_of_mem_members {s : Spec} {i : Int} (hnum : s.numRandom = .integer i)
    (hi : IsWord64 i) : ∀ m ∈ s.members, Exact (Reader.maxDepth - 1) m.2 := by
  have hstrings (xs : List String) : Exact (Reader.maxDepth - 1) (.array (xs.map .str)) := by
    refine .array fun v hv => ?_
    obtain ⟨x, _, rfl⟩ := List.mem_map.mp hv
    exact .scalar (.str x)
  have hnumber : Exact (Reader.maxDepth - 1) (.number s.numRandom) := by
    rw [hnum]
    exact .scalar (.integer hi)
  simp only [members, List.forall_mem_cons]
  exact ⟨.scalar (.str s.fname), hstrings s.types, hstrings s.exhaustive, hstrings s.random,
    hnumber, by simp⟩

-- However its members are ordered and laid out.
theorem ofText_of_layout (s : Spec) {i : Int} (hnum : s.numRandom = .integer i) (hi : IsWord64 i) :
    ofText s.toJson.text = .ok s ∧
      ∀ members text, members.Perm s.members →
        Layout (lexemes (.object members)) text.toList → ofText text = .ok s := by
  have hread : ∀ members text, members.Perm s.members →
      Layout (lexemes (.object members)) text.toList → ofText text = .ok s := by
    intro members text hperm hlayout
    have hvalues : ∀ m ∈ members, Exact (Reader.maxDepth - 1) m.2 := fun m hm =>
      exact_of_mem_members hnum hi m (hperm.mem_iff.mp hm)
    have hkeys : (members.map Prod.fst).Nodup := (perm_keys hperm).nodup_iff.mpr nodup_keys
    rw [ofText, read?_of_layout_object hvalues hlayout, objectOf_def]
    exact ofMembers_of_perm ((sortDistinct_perm_of_nodup hkeys).trans hperm)
  refine ⟨?_, hread⟩
  rw [toJson_eq]
  exact hread s.members _ (.refl _) (layout_text _)

-- A name with a quote, a backslash and control characters, and the greatest number of cases.
def escapes : Spec where
  fname := "say \"h\u00e9\\\n\x01"
  types := ["list(int)", ""]
  exhaustive := ["0~2 1"]
  random := []
  numRandom := .integer 0xffffffffffffffff

theorem ofText_escapes : escapes.numRandom = .integer 0xffffffffffffffff ∧
    IsWord64 0xffffffffffffffff ∧ ofText escapes.toJson.text = .ok escapes ∧
      ofText (Json.object escapes.members.reverse).text = .ok escapes := by
  have hread := ofText_of_layout escapes rfl (by decide : IsWord64 0xffffffffffffffff)
  exact ⟨rfl, by decide, hread.1, hread.2 _ _ (List.reverse_perm _) (layout_text _)⟩

end CallSuite.Spec
