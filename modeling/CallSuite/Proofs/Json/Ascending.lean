import CallSuite.Proofs.Json.ReadBack

namespace CallSuite.Json

-- If it is an object, no key is given twice and each stands in front of the greater ones.
def Ascends (v : Json) : Prop := ∀ members, v = .object members → KeysAscend members

theorem ascends_objectOf (members : List (String × Json)) : (objectOf members).Ascends := by
  rintro _ ⟨⟩
  exact pairwise_sortDistinct compareKeys members

theorem ascends_of_not_object {v : Json} (h : ∀ members, v ≠ .object members) : v.Ascends :=
  fun members hv => absurd hv (h members)

-- Objects are put together from marks, and no lexeme is one.
def Lexeme.Flat (x : Lexeme) : Prop := ∀ members, x ≠ .scalar (.object members)

section Lexemes

variable {x : Lexeme} {xs done : List Lexeme} {cs rest : List Char}

theorem flat_of_takeLexeme? (h : takeLexeme? cs = some (x, rest)) : x.Flat := by
  rintro members rfl
  unfold takeLexeme? at h
  split at h
  · cases h
  · obtain ⟨_, _, ⟨⟩⟩ := Option.map_eq_some_iff.mp h
  · cases h
  · cases h
  · cases h
  · split_ifs at h
    · cases h
    · obtain ⟨_, _, ⟨⟩⟩ := Option.map_eq_some_iff.mp h

theorem flat_of_lexemesFrom? (h : lexemesFrom? done cs = some xs) (hdone : ∀ x ∈ done, x.Flat) :
    ∀ x ∈ xs, x.Flat := by
  fun_induction lexemesFrom? done cs with
  | case1 done cs _ =>
      cases h
      simpa using hdone
  | case2 => cases h
  | case3 done cs c cs' _ x rest htake ih =>
      exact ih h (List.forall_mem_cons.mpr ⟨flat_of_takeLexeme? htake, hdone⟩)

end Lexemes

namespace Reader

variable {r r' : Reader} {x : Lexeme} {xs : List Lexeme} {frames : List Frame}

-- What has just been read ascends.
def Ascends : Reader → Prop
  | .after v _ => v.Ascends
  | _ => True

theorem ascends_of_startValue (hx : x.Flat) (h : startValue frames x = some r) : r.Ascends := by
  cases x with
  | scalar v =>
      cases h
      exact ascends_of_not_object fun members hv => hx members (congrArg _ hv)
  | mark c =>
      simp only [startValue, Option.ite_none_right_eq_some] at h
      obtain ⟨_, h⟩ := h
      split_ifs at h
      · cases h
        trivial
      · cases h
        trivial

theorem ascends_of_push (hx : x.Flat) (h : r.push x = some r') : r'.Ascends := by
  unfold push at h
  split at h
  · exact ascends_of_startValue hx h
  · cases h
    exact ascends_of_not_object (by simp)
  · exact ascends_of_startValue hx h
  · cases h
    trivial
  · cases h
    rintro _ ⟨⟩
    exact .nil
  · cases h
    trivial
  · cases h
    trivial
  · cases h
    exact ascends_of_not_object (by simp)
  · cases h
    trivial
  · cases h
    exact ascends_objectOf _
  · cases h

theorem ascends_of_foldlM (hxs : ∀ x ∈ xs, x.Flat) (hr : r.Ascends)
    (h : xs.foldlM push r = some r') : r'.Ascends := by
  induction xs generalizing r with
  | nil =>
      cases h
      exact hr
  | cons x xs ih =>
      obtain ⟨hx, hxs⟩ := List.forall_mem_cons.mp hxs
      obtain ⟨mid, hmid, hrest⟩ := Option.bind_eq_some_iff.mp h
      exact ih hxs (ascends_of_push hx hmid) hrest

end Reader

theorem ascends_of_read? {text : String} {v : Json} (h : read? text = some v) : v.Ascends := by
  obtain ⟨xs, hxs, h⟩ := Option.bind_eq_some_iff.mp h
  obtain ⟨reader, hreader, hfinish⟩ := Option.bind_eq_some_iff.mp h
  have hstart : (Reader.value []).Ascends := trivial
  have hascends : reader.Ascends :=
    Reader.ascends_of_foldlM (flat_of_lexemesFrom? hxs (by simp)) hstart hreader
  unfold Reader.finish at hfinish
  split at hfinish
  · cases hfinish
    exact hascends
  · cases hfinish

end CallSuite.Json
