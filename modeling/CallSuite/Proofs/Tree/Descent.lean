import CallSuite.Proofs.Tree.Grammar

namespace CallSuite.TypeTree

open CallSuite.Text

def collectionOf? : String → Option Collection
  | "list" => some .list
  | "tuple" => some .tuple
  | "set" => some .set
  | _ => none

theorem collectionOf?_eq_some {w : String} {c : Collection} :
    collectionOf? w = some c ↔ w = c.name := by
  constructor
  · intro h
    unfold collectionOf? at h
    split at h <;> cases h <;> rfl
  · rintro rfl
    cases c <;> rfl

theorem lt_length_cons {n : Nat} {token : Token} {ts : List Token} (h : n < ts.length) :
    n < (token :: ts).length := Nat.lt_succ_of_lt h

-- Reads a type from the left: the tree, and the tokens behind it.
def descend (ts : List Token) :
    Option (TypeTree × { rest : List Token // rest.length < ts.length }) :=
  match ts with
  | .word "int" :: rest => some (.int .empty, ⟨rest, Nat.lt_succ_self _⟩)
  | .word "bool" :: rest => some (.bool .empty, ⟨rest, Nat.lt_succ_self _⟩)
  | .word "float" :: rest => some (.float .empty, ⟨rest, Nat.lt_succ_self _⟩)
  | .word "str" :: .delim '(' :: .word s :: rest =>
    if s ∈ keywords then none
    else some (.str (.ofList s.toList) .empty,
      ⟨rest, lt_length_cons (lt_length_cons (Nat.lt_succ_self _))⟩)
  | .word "dict" :: .delim '(' :: rest =>
    match descend rest with
    | some (key, ⟨.delim ':' :: rest', hkey⟩) => match descend rest' with
      | some (value, ⟨rest'', hvalue⟩) => some (.dict .empty key value,
        ⟨rest'', lt_length_cons (lt_length_cons (hvalue.trans (Nat.lt_of_succ_lt hkey)))⟩)
      | none => none
    | _ => none
  | .word w :: .delim '(' :: rest =>
    match collectionOf? w with
    | some c => match descend rest with
      | some (item, ⟨rest', hitem⟩) => some (.collection c .empty item,
        ⟨rest', lt_length_cons (lt_length_cons hitem)⟩)
      | none => none
    | none => none
  | _ => none
termination_by ts.length
decreasing_by all_goals (simp only [List.length_cons] at *; omega)

-- The tree of all the tokens.
def ofTokensFromLeft? (ts : List Token) : Option TypeTree :=
  match descend ts with
  | some (t, ⟨[], _⟩) => some t
  | _ => none

theorem Derives.exists_descend {us rest ts : List Token} {t : TypeTree} (h : Derives us t)
    (hts : ts = us ++ rest) : ∃ hrest, descend ts = some (t, ⟨rest, hrest⟩) := by
  induction h generalizing rest ts with
  | int | bool | float =>
      subst hts
      exact ⟨by simp, by simp [descend]⟩
  | @str s alphabet hs halphabet =>
      subst hts
      obtain rfl := OrderedSet.eq_ofList_iff.mpr halphabet
      exact ⟨by simp; omega, by simp [descend, hs]⟩
  | @collection ts item c _ ih =>
      subst hts
      obtain ⟨_, hitem⟩ := ih (Eq.refl (ts ++ rest))
      refine ⟨by simp; omega, ?_⟩
      cases c <;> simp [descend, Collection.name, collectionOf?, hitem]
  | @dict ks key vs value _ _ ihk ihv =>
      obtain rfl : ts = .word "dict" :: .delim '(' :: (ks ++ .delim ':' :: (vs ++ rest)) := by
        simpa using hts
      obtain ⟨_, hkey⟩ := ihk (Eq.refl (ks ++ .delim ':' :: (vs ++ rest)))
      obtain ⟨_, hvalue⟩ := ihv (Eq.refl (vs ++ rest))
      refine ⟨by simp; omega, ?_⟩
      simp [descend, hkey, hvalue]

theorem derives_of_descend (ts : List Token) :
    ∀ r ∈ descend ts, ∃ us, ts = us ++ r.2.val ∧ Derives us r.1 := by
  fun_induction descend ts with
  | case1 | case2 | case3 =>
      rintro r ⟨⟩
      exact ⟨[_], rfl, by constructor⟩
  | case5 s rest hs =>
      rintro r ⟨⟩
      exact ⟨[_, _, _], rfl, .str hs fun c => OrderedSet.mem_ofList⟩
  | case6 rest key rest' _ hkey value rest'' _ hvalue ihk ihv =>
      rintro r ⟨⟩
      obtain ⟨ks, hks, hkeys⟩ := ihk _ hkey
      obtain ⟨vs, hvs, hvalues⟩ := ihv _ hvalue
      refine ⟨_, ?_, .dict hkeys hvalues⟩
      simp only at hks hvs
      simp [hks, hvs]
  | case9 w rest _ _ _ _ _ c hc item rest' _ hitem ih =>
      rintro r ⟨⟩
      obtain ⟨us, hus, hitems⟩ := ih _ hitem
      obtain rfl := collectionOf?_eq_some.mp hc
      exact ⟨_, congrArg (_ :: _ :: ·) hus, .collection c hitems⟩
  | case4 | case7 | case8 | case10 | case11 | case12 =>
      rintro r ⟨⟩

theorem ofTokensFromLeft?_eq_some_iff {ts : List Token} {t : TypeTree} :
    ofTokensFromLeft? ts = some t ↔ Derives ts t := by
  constructor
  · intro h
    unfold ofTokensFromLeft? at h
    split at h <;> cases h
    next hdescend =>
      obtain ⟨us, hus, ht⟩ := derives_of_descend ts _ hdescend
      simp only [List.append_nil] at hus
      exact hus ▸ ht
  · intro h
    obtain ⟨_, hdescend⟩ := h.exists_descend (ts.append_nil).symm
    simp [ofTokensFromLeft?, hdescend]

section Derivation

variable {ts us before rest : List Token} {t u : TypeTree}

theorem Derives.unique (ht : Derives ts t) (hu : Derives ts u) : t = u := by
  rw [← ofTokens_eq_ok_iff] at ht hu
  rw [ht] at hu
  cases hu
  rfl

theorem Derives.eq_nil_of_append (ht : Derives ts t) (hu : Derives (ts ++ rest) u) : rest = [] := by
  obtain ⟨_, hts⟩ := ht.exists_descend (Eq.refl (ts ++ rest))
  obtain ⟨_, hall⟩ := hu.exists_descend (List.append_nil _).symm
  rw [hts] at hall
  cases hall
  rfl

theorem Derives.exists_eq_cons (h : Derives ts t) :
    ∃ w ∈ keywords, ∃ tail, ts = .word w :: tail := by
  cases h with
  | collection c => exact ⟨_, by cases c <;> simp [keywords, Collection.name], _, rfl⟩
  | _ => exact ⟨_, by simp [keywords], _, rfl⟩

-- A keyword starts a type, so that inside a derivation one of these delimiters is before it.
def Opens (a b : Token) : Prop :=
  (∃ w ∈ keywords, b = .word w) → a = .delim '(' ∨ a = .delim ':'

theorem opens_delim {a : Token} {c : Char} : Opens a (.delim c) := by
  rintro ⟨_, _, h⟩
  cases h

theorem Derives.isChain_opens (h : Derives ts t) : ts.IsChain Opens := by
  induction h with
  | int | bool | float => exact .singleton _
  | str hs =>
      refine .cons_cons opens_delim (.cons_cons ?_ (.singleton _))
      rintro ⟨w, hw, ⟨⟩⟩
      exact absurd hw hs
  | collection c hitem ih =>
      refine .cons_cons opens_delim (List.isChain_cons.mpr ⟨fun _ _ _ => .inl rfl, ih⟩)
  | dict hkey hvalue ihk ihv =>
      refine .cons_cons opens_delim (List.isChain_cons.mpr ⟨fun _ _ _ => .inl rfl, ?_⟩)
      refine ihk.append (List.isChain_cons.mpr ⟨fun _ _ _ => .inr rfl, ihv⟩) ?_
      rintro _ _ _ ⟨⟩
      exact opens_delim

theorem Derives.getLast_of_append (ht : Derives ts t) (hu : Derives (before ++ ts) u) :
    before = [] ∨ before.getLast? = some (.delim '(') ∨ before.getLast? = some (.delim ':') := by
  rcases before.eq_nil_or_concat with rfl | ⟨front, a, rfl⟩
  · exact .inl rfl
  · obtain ⟨w, hw, tail, rfl⟩ := ht.exists_eq_cons
    have hopens : Opens a (.word w) :=
      (List.isChain_append.mp hu.isChain_opens).2.2 a (by simp) _ (by simp)
    right
    simpa using hopens ⟨w, hw, rfl⟩

theorem Derives.unfilled (h : Derives ts t) (role : Role) : t.Unfilled role := by
  induction h with
  | int | bool | float | str => exact Slots.get_empty role
  | collection _ _ ih => exact ⟨Slots.get_empty role, ih⟩
  | dict _ _ ihk ihv => exact ⟨Slots.get_empty role, ihk, ihv⟩

end Derivation

-- The scan from the right on one stack and the descent from the left read the same language.
theorem ofText_reads_grammar :
    (∀ text t, ofText text = .ok t ↔ Derives (tokens text) t) ∧
    (∀ ts t, Derives ts t → ∀ role, t.Unfilled role) ∧
    (∀ ts t u, Derives ts t → Derives ts u → t = u) ∧
    (∀ ts rest t u, Derives ts t → Derives (ts ++ rest) u → rest = []) ∧
    (∀ before ts t u, Derives ts t → Derives (before ++ ts) u →
      before = [] ∨ before.getLast? = some (.delim '(') ∨ before.getLast? = some (.delim ':')) ∧
    ∀ ts, (ofTokens ts).toOption = ofTokensFromLeft? ts := by
  refine ⟨fun text t => ?_, fun _ _ h => h.unfilled, fun _ _ _ ht hu => ht.unique hu,
    fun _ _ _ _ ht hu => ht.eq_nil_of_append hu, fun _ _ _ _ ht hu => ht.getLast_of_append hu,
    fun ts => ?_⟩
  · rw [ofText, mapError_eq_ok, ofTokens_eq_ok_iff]
  · ext t
    rw [ofTokensFromLeft?_eq_some_iff, ← ofTokens_eq_ok_iff]
    cases ofTokens ts <;> simp [Except.toOption]

end CallSuite.TypeTree
