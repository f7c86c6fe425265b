import CallSuite.Proofs.Json.Ascending
import CallSuite.Proofs.Spec.ReadBack
import Mathlib.Data.List.Perm.Subperm

namespace CallSuite.Spec

open Json

variable {members : List (String × Json)} {s : Spec} {v : Json} {e : SpecError}

section Values

-- Each value is decoded from what it is written as, and from nothing else.
theorem asString_eq_ok {x : String} : asString v = .ok x ↔ v = .str x := by
  cases v <;> simp [asString]

theorem asNumber_eq_ok {n : JsonNumber} : asNumber v = .ok n ↔ v = .number n := by
  cases v <;> simp [asNumber]

theorem map_asString_eq_ok {items : List Json} {xs : List String} :
    items.map asString = xs.map .ok ↔ items = xs.map .str := by
  induction items generalizing xs with
  | nil => cases xs <;> simp
  | cons v items ih => cases xs <;> simp [asString_eq_ok, ih]

theorem asStrings_eq_ok {xs : List String} : asStrings v = .ok xs ↔ v = .array (xs.map .str) := by
  cases v <;> simp [asStrings, mapM_eq_ok, map_asString_eq_ok]

def Meets : Json → Wanted → Prop
  | .str _, .string | .array _, .sequence | .number _, .number => True
  | _, _ => False

-- An error that names a value which is not what was wanted.
def IsField (e : SpecError) : Prop :=
  ∃ found wanted, e = .field found wanted ∧ ¬Meets found wanted

theorem isField_of_asString (h : asString v = .error e) : IsField e := by
  cases v <;> cases h <;> exact ⟨_, _, rfl, not_false⟩

theorem isField_of_asNumber (h : asNumber v = .error e) : IsField e := by
  cases v <;> cases h <;> exact ⟨_, _, rfl, not_false⟩

theorem isField_of_asStrings (h : asStrings v = .error e) : IsField e := by
  cases v with
  | array items =>
      obtain ⟨w, _, hw⟩ := exists_of_mapM_eq_error h
      exact isField_of_asString hw
  | _ =>
      cases h
      exact ⟨_, _, rfl, not_false⟩

end Values

section Keys

-- The keys are those of a specification, and all of them.
def HasKeys (members : List (String × Json)) : Prop :=
  ∀ key, key ∈ members.map Prod.fst ↔ key ∈ keys

-- In what the keys of an object differ from those of a specification.
structure Differences (members : List (String × Json)) (missing unexpected : List String) :
    Prop where
  missing_sublist : missing.Sublist keys
  mem_missing : ∀ key, key ∈ missing ↔ key ∈ keys ∧ key ∉ members.map Prod.fst
  unexpected_ascending : unexpected.Pairwise (· < ·)
  mem_unexpected : ∀ key, key ∈ unexpected ↔ key ∈ members.map Prod.fst ∧ key ∉ keys

theorem hasKeys_iff : HasKeys members ↔ keys.filter (· ∉ members.map Prod.fst) = [] ∧
    (members.map Prod.fst).filter (· ∉ keys) = [] := by
  simp only [List.filter_eq_nil_iff, decide_eq_true_eq, not_not]
  constructor
  · exact fun h => ⟨fun key => (h key).mpr, fun key => (h key).mp⟩
  · exact fun h key => ⟨h.2 key, h.1 key⟩

theorem lt_of_keysAscend (h : KeysAscend members) : (members.map Prod.fst).Pairwise (· < ·) :=
  List.pairwise_map.mpr (h.imp fun hlt => compareOfLessAndEq_eq_lt.mp hlt)

theorem nodup_of_keysAscend (h : KeysAscend members) : (members.map Prod.fst).Nodup := by
  refine (lt_of_keysAscend h).imp fun {a b} hlt heq => ?_
  rw [heq] at hlt
  exact String.lt_irrefl b hlt

theorem differences_of_keysAscend (h : KeysAscend members) :
    Differences members (keys.filter (· ∉ members.map Prod.fst))
      ((members.map Prod.fst).filter (· ∉ keys)) where
  missing_sublist := List.filter_sublist
  mem_missing := by simp
  unexpected_ascending := (lt_of_keysAscend h).filter _
  mem_unexpected := by simp

theorem ofMembers_of_not_hasKeys (h : ¬HasKeys members) :
    ofMembers members = .error (.keys (keys.filter (· ∉ members.map Prod.fst))
      ((members.map Prod.fst).filter (· ∉ keys))) :=
  if_neg (mt hasKeys_iff.mpr h)

end Keys

section Fields

-- What stands beside each key has to be of its kind. Any number will do.
structure WellTyped (members : List (String × Json)) : Prop where
  fname : ∀ v, ("fname", v) ∈ members → ∃ x, v = .str x
  types : ∀ v, ("types", v) ∈ members → ∃ xs : List String, v = .array (xs.map .str)
  exhaustive : ∀ v, ("exhaustive domain", v) ∈ members →
    ∃ xs : List String, v = .array (xs.map .str)
  random : ∀ v, ("random domain", v) ∈ members → ∃ xs : List String, v = .array (xs.map .str)
  numRandom : ∀ v, ("num random", v) ∈ members → ∃ n, v = .number n

theorem hasKeys_of_perm (h : members.Perm s.members) : HasKeys members :=
  fun _ => (perm_keys h).mem_iff

theorem wellTyped_of_perm (h : members.Perm s.members) : WellTyped members := by
  have heq : ∀ {key v w}, (key, v) ∈ members → (key, w) ∈ s.members → v = w := by
    intro key v w hv hw
    have hnodup : (s.members.map Prod.fst).Nodup := nodup_keys
    rw [← valueAt_of_mem hnodup (h.mem_iff.mp hv), valueAt_of_mem hnodup hw]
  refine ⟨fun v hv => ⟨s.fname, heq hv ?_⟩, fun v hv => ⟨s.types, heq hv ?_⟩,
    fun v hv => ⟨s.exhaustive, heq hv ?_⟩, fun v hv => ⟨s.random, heq hv ?_⟩,
    fun v hv => ⟨s.numRandom, heq hv ?_⟩⟩ <;> simp [Spec.members]

theorem exists_mem_of_hasKeys (h : HasKeys members) (key : String) (hkey : key ∈ keys) :
    ∃ v, (key, v) ∈ members := by
  obtain ⟨⟨_, v⟩, hmem, rfl⟩ := List.mem_map.mp ((h key).mpr hkey)
  exact ⟨v, hmem⟩

-- With no key given twice there is no room for anything else.
theorem perm_of_subset (hascend : KeysAscend members) (hkeys : HasKeys members)
    (h : s.members ⊆ members) : members.Perm s.members := by
  have hperm : (members.map Prod.fst).Perm keys :=
    (List.perm_ext_iff_of_nodup (nodup_of_keysAscend hascend) nodup_keys).mpr hkeys
  have hlength : members.length = s.members.length := by
    have hkeys := hperm.length_eq
    rwa [List.length_map] at hkeys
  have hnodup : s.members.Nodup := List.Nodup.of_map Prod.fst nodup_keys
  exact ((List.subperm_of_subset hnodup h).perm_of_length_le hlength.le).symm

-- Fields that are of their kind are those of a specification.
theorem exists_perm_iff (hascend : KeysAscend members) :
    (∃ s : Spec, members.Perm s.members) ↔ HasKeys members ∧ WellTyped members := by
  constructor
  · rintro ⟨s, h⟩
    exact ⟨hasKeys_of_perm h, wellTyped_of_perm h⟩
  · rintro ⟨hkeys, htyped⟩
    obtain ⟨v₁, h₁⟩ := exists_mem_of_hasKeys hkeys "fname" (by decide)
    obtain ⟨v₂, h₂⟩ := exists_mem_of_hasKeys hkeys "types" (by decide)
    obtain ⟨v₃, h₃⟩ := exists_mem_of_hasKeys hkeys "exhaustive domain" (by decide)
    obtain ⟨v₄, h₄⟩ := exists_mem_of_hasKeys hkeys "random domain" (by decide)
    obtain ⟨v₅, h₅⟩ := exists_mem_of_hasKeys hkeys "num random" (by decide)
    obtain ⟨fname, rfl⟩ := htyped.fname v₁ h₁
    obtain ⟨types, rfl⟩ := htyped.types v₂ h₂
    obtain ⟨exhaustive, rfl⟩ := htyped.exhaustive v₃ h₃
    obtain ⟨random, rfl⟩ := htyped.random v₄ h₄
    obtain ⟨numRandom, rfl⟩ := htyped.numRandom v₅ h₅
    refine ⟨⟨fname, types, exhaustive, random, numRandom⟩, perm_of_subset hascend hkeys ?_⟩
    simp only [Spec.members, List.cons_subset, List.nil_subset, h₁, h₂, h₃, h₄, h₅, and_self]

end Fields

section Outcomes

theorem hasKeys_of_ofMembers_eq_ok (h : ofMembers members = .ok s) : HasKeys members := by
  by_contra hkeys
  rw [ofMembers_of_not_hasKeys hkeys] at h
  cases h

theorem mem_of_valueAt (hascend : KeysAscend members) (hkeys : HasKeys members) {key : String}
    (hkey : key ∈ keys) (h : valueAt members key = v) : (key, v) ∈ members := by
  obtain ⟨w, hw⟩ := exists_mem_of_hasKeys hkeys key hkey
  rwa [← h, valueAt_of_mem (nodup_of_keysAscend hascend) hw]

theorem ofMembers_eq_ok (hascend : KeysAscend members) :
    ofMembers members = .ok s ↔ members.Perm s.members := by
  refine ⟨fun h => ?_, ofMembers_of_perm⟩
  have hkeys := hasKeys_of_ofMembers_eq_ok h
  have hvalue : ∀ {key v}, key ∈ keys → valueAt members key = v → (key, v) ∈ members :=
    mem_of_valueAt hascend hkeys
  rw [ofMembers, if_pos (hasKeys_iff.mp hkeys)] at h
  obtain ⟨exhaustive, hexhaustive, h⟩ := bind_eq_ok.mp h
  obtain ⟨fname, hfname, h⟩ := bind_eq_ok.mp h
  obtain ⟨numRandom, hnumRandom, h⟩ := bind_eq_ok.mp h
  obtain ⟨random, hrandom, h⟩ := bind_eq_ok.mp h
  obtain ⟨types, htypes, ⟨⟩⟩ := bind_eq_ok.mp h
  refine perm_of_subset hascend hkeys ?_
  simp only [Spec.members, List.cons_subset, List.nil_subset, and_true]
  exact ⟨hvalue (by decide) (asString_eq_ok.mp hfname),
    hvalue (by decide) (asStrings_eq_ok.mp htypes),
    hvalue (by decide) (asStrings_eq_ok.mp hexhaustive),
    hvalue (by decide) (asStrings_eq_ok.mp hrandom),
    hvalue (by decide) (asNumber_eq_ok.mp hnumRandom)⟩

-- Once the keys are there, only the values can be wrong.
theorem isField_of_hasKeys (hkeys : HasKeys members) (h : ofMembers members = .error e) :
    IsField e := by
  rw [ofMembers, if_pos (hasKeys_iff.mp hkeys)] at h
  obtain h | ⟨_, _, h⟩ := bind_eq_error.mp h
  · exact isField_of_asStrings h
  obtain h | ⟨_, _, h⟩ := bind_eq_error.mp h
  · exact isField_of_asString h
  obtain h | ⟨_, _, h⟩ := bind_eq_error.mp h
  · exact isField_of_asNumber h
  obtain h | ⟨_, _, h⟩ := bind_eq_error.mp h
  · exact isField_of_asStrings h
  obtain h | ⟨_, _, ⟨⟩⟩ := bind_eq_error.mp h
  exact isField_of_asStrings h

theorem exists_ofMembers_eq_ok (hascend : KeysAscend members) :
    (∃ s, ofMembers members = .ok s) ↔ HasKeys members ∧ WellTyped members := by
  simp only [ofMembers_eq_ok hascend]
  exact exists_perm_iff hascend

theorem ofMembers_eq_keys {missing unexpected : List String} :
    ofMembers members = .error (.keys missing unexpected) ↔ ¬HasKeys members ∧
      keys.filter (· ∉ members.map Prod.fst) = missing ∧
      (members.map Prod.fst).filter (· ∉ keys) = unexpected := by
  by_cases hkeys : HasKeys members
  · refine iff_of_false (fun h => ?_) fun h => h.1 hkeys
    obtain ⟨_, _, ⟨⟩, _⟩ := isField_of_hasKeys hkeys h
  · simp [ofMembers_of_not_hasKeys hkeys, hkeys]

theorem exists_ofMembers_eq_field (hascend : KeysAscend members) :
    (∃ found wanted, ofMembers members = .error (.field found wanted)) ↔
      HasKeys members ∧ ¬WellTyped members := by
  constructor
  · rintro ⟨found, wanted, h⟩
    have hkeys : HasKeys members := by
      by_contra hkeys
      rw [ofMembers_of_not_hasKeys hkeys] at h
      cases h
    refine ⟨hkeys, fun htyped => ?_⟩
    obtain ⟨s, hs⟩ := (exists_ofMembers_eq_ok hascend).mpr ⟨hkeys, htyped⟩
    rw [hs] at h
    cases h
  · rintro ⟨hkeys, htyped⟩
    cases h : ofMembers members with
    | ok s => exact absurd ((exists_ofMembers_eq_ok hascend).mp ⟨s, h⟩).2 htyped
    | error e =>
        obtain ⟨found, wanted, rfl, _⟩ := isField_of_hasKeys hkeys h
        exact ⟨found, wanted, rfl⟩

-- What becomes of a value. The keys of an object come before what stands beside them.
structure Classified (v : Json) (outcome : Except SpecError Spec) : Prop where
  notAnObject : outcome = .error .notAnObject ↔ ∀ members, v ≠ .object members
  keys : (∃ missing unexpected, outcome = .error (.keys missing unexpected)) ↔
    ∃ members, v = .object members ∧ ¬HasKeys members
  differences : ∀ members missing unexpected, v = .object members →
    outcome = .error (.keys missing unexpected) → Differences members missing unexpected
  field : (∃ found wanted, outcome = .error (.field found wanted)) ↔
    ∃ members, v = .object members ∧ HasKeys members ∧ ¬WellTyped members
  fault : ∀ found wanted, outcome = .error (.field found wanted) → ¬Meets found wanted
  accepted : (∃ s, outcome = .ok s) ↔
    ∃ members, v = .object members ∧ HasKeys members ∧ WellTyped members
  verbatim : ∀ s, outcome = .ok s ↔ ∃ members, v = .object members ∧ members.Perm s.members

theorem classified_of_not_object (h : ∀ members, v ≠ .object members) :
    Classified v (ofJson v) := by
  have houtcome : ofJson v = .error .notAnObject := by
    cases v with
    | object members => exact absurd rfl (h members)
    | _ => rfl
  have hnone : ∀ P : List (String × Json) → Prop, ¬∃ members, v = .object members ∧ P members :=
    fun P ⟨members, hv, _⟩ => h members hv
  rw [houtcome]
  refine ⟨iff_of_true rfl h, ?_, ?_, ?_, ?_, ?_, ?_⟩
  · simp [hnone]
  · simp
  · simp [hnone]
  · simp
  · simp [hnone]
  · simp [hnone]

theorem classified_of_object (hascend : KeysAscend members) :
    Classified (.object members) (ofMembers members) where
  notAnObject := by
    refine iff_of_false (fun h => ?_) fun h => h members rfl
    by_cases hkeys : HasKeys members
    · obtain ⟨_, _, ⟨⟩, _⟩ := isField_of_hasKeys hkeys h
    · rw [ofMembers_of_not_hasKeys hkeys] at h
      cases h
  keys := by simp [ofMembers_eq_keys]
  differences := by
    rintro _ missing unexpected ⟨⟩ h
    obtain ⟨_, rfl, rfl⟩ := ofMembers_eq_keys.mp h
    exact differences_of_keysAscend hascend
  field := by simpa using exists_ofMembers_eq_field hascend
  fault := by
    intro found wanted h
    have hkeys := ((exists_ofMembers_eq_field hascend).mp ⟨found, wanted, h⟩).1
    obtain ⟨_, _, ⟨⟩, hmeets⟩ := isField_of_hasKeys hkeys h
    exact hmeets
  accepted := by simpa using exists_ofMembers_eq_ok hascend
  verbatim := by simp [ofMembers_eq_ok hascend]

theorem classified_ofJson (h : v.Ascends) : Classified v (ofJson v) := by
  by_cases hobject : ∃ members, v = .object members
  · obtain ⟨members, rfl⟩ := hobject
    exact classified_of_object (h members rfl)
  · exact classified_of_not_object fun members hv => hobject ⟨members, hv⟩

-- Every value is classified, and every text as the value that it is read to.
theorem ofText_classifies :
    (∀ v : Json, v.Ascends → Classified v (ofJson v)) ∧
      ∀ text : String, (read? text = none ∧ ofText text = .error .notJson) ∨
        ∃ v, read? text = some v ∧ Classified v (ofText text) := by
  refine ⟨fun v => classified_ofJson, fun text => ?_⟩
  unfold ofText
  cases h : read? text with
  | none => exact .inl ⟨rfl, rfl⟩
  | some v => exact .inr ⟨v, rfl, classified_ofJson (ascends_of_read? h)⟩

-- Two keys of a specification are missing, two others are not wanted, and no value is of its kind.
def misspelt : Json :=
  .object [("exhaustive domain", .null), ("fname", .bool true), ("random_domain", .null),
    ("types", .null), ("unused", .null)]

theorem classified_misspelt : misspelt.Ascends ∧ ∃ missing unexpected,
    ofJson misspelt = .error (.keys missing unexpected) ∧
      missing = ["random domain", "num random"] ∧ unexpected = ["random_domain", "unused"] := by
  have hascends : misspelt.Ascends := by
    rintro _ ⟨⟩
    unfold KeysAscend
    decide
  have hclassified := ofText_classifies.1 misspelt hascends
  obtain ⟨missing, unexpected, h⟩ := hclassified.keys.mpr ⟨_, rfl, fun hkeys =>
    absurd ((hkeys "unused").mp (by decide)) (by decide)⟩
  refine ⟨hascends, missing, unexpected, h, ?_⟩
  cases h
  decide

end Outcomes

end CallSuite.Spec
