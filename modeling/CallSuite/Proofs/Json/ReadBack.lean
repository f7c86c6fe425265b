import CallSuite.Proofs.Json.Layout
import CallSuite.Proofs.Ordered

namespace CallSuite.Json

def compareKeys (a b : String × Json) : Ordering := compare a.1 b.1

instance : Std.TransCmp compareKeys := inferInstanceAs (Std.TransCmp (compareOn Prod.fst))

theorem objectOf_def (members : List (String × Json)) :
    objectOf members = .object (sortDistinct compareKeys members) := rfl

def KeysAscend (members : List (String × Json)) : Prop :=
  members.Pairwise (compareKeys · · = .lt)

-- Values as reading gives them: every number is a whole one that is kept exactly, and arrays and
-- objects are at most `d` deep.
inductive Exact : Nat → Json → Prop
  | scalar {d v} (hv : (Lexeme.scalar v).Exact) : Exact d v
  | array {d items} (hitems : ∀ v ∈ items, Exact d v) : Exact (d + 1) (.array items)
  | object {d members} (hkeys : KeysAscend members) (hvalues : ∀ m ∈ members, Exact d m.2) :
    Exact (d + 1) (.object members)

theorem lexemes_of_exact {v : Json} (hv : (Lexeme.scalar v).Exact) : v.lexemes = [.scalar v] := by
  cases hv <;> rfl

-- Each key stands for its own member.
theorem sortDistinct_perm_of_nodup {members : List (String × Json)}
    (h : (members.map Prod.fst).Nodup) : (sortDistinct compareKeys members).Perm members :=
  sortDistinct_perm ((List.pairwise_map.mp h).imp fun hne heq =>
    hne (Std.LawfulEqCmp.eq_of_compare heq))

theorem objectOf_eq {members : List (String × Json)} (h : KeysAscend members) :
    objectOf members = .object members := by
  rw [objectOf_def, sortDistinct_eq_self h]

section Lexemes

variable {d : Nat} {v : Json} {rest : List Lexeme}

-- What `Closing` lexemes may follow.
def Ended (v : Json) : Prop := ∀ rest, Closing rest → Kept (v.lexemes ++ rest)

theorem closing_itemLexemes {items : List Json} (hitems : ∀ v ∈ items, Ended v)
    (hrest : Closing rest) : Closing (itemLexemes [Lexeme.mark ','] items ++ rest) := by
  induction items with
  | nil => exact hrest
  | cons v items ih =>
      have hv := hitems v (by simp) _ (ih fun w hw => hitems w (.tail _ hw))
      simpa [itemLexemes] using hv.mark (c := ',') (by decide)

theorem closing_memberLexemes {members : List (String × Json)} (hvalues : ∀ m ∈ members, Ended m.2)
    (hrest : Closing rest) : Closing (memberLexemes [Lexeme.mark ','] members ++ rest) := by
  induction members with
  | nil => exact hrest
  | cons m members ih =>
      have hm := hvalues m (by simp) _ (ih fun n hn => hvalues n (.tail _ hn))
      have hkey := (hm.mark (c := ':') (by decide)).scalar (.str m.1)
      simpa [memberLexemes] using hkey.mark (c := ',') (by decide)

theorem Ended.array {items : List Json} (hitems : ∀ v ∈ items, Ended v) : Ended (.array items) := by
  intro rest hrest
  have hclose := hrest.mark (c := ']') (by decide)
  cases items with
  | nil => exact (hclose.mark (c := '[') (by decide)).toKept
  | cons v items =>
      have hv := hitems v (by simp) _
        (closing_itemLexemes (fun w hw => hitems w (.tail _ hw)) hclose)
      simpa [lexemes, itemLexemes] using (hv.mark (c := '[') (by decide)).toKept

theorem Ended.object {members : List (String × Json)} (hvalues : ∀ m ∈ members, Ended m.2) :
    Ended (.object members) := by
  intro rest hrest
  have hclose := hrest.mark (c := '}') (by decide)
  cases members with
  | nil => exact (hclose.mark (c := '{') (by decide)).toKept
  | cons m members =>
      have hm := hvalues m (by simp) _
        (closing_memberLexemes (fun n hn => hvalues n (.tail _ hn)) hclose)
      have hkey := (hm.mark (c := ':') (by decide)).scalar (.str m.1)
      simpa [lexemes, memberLexemes] using (hkey.mark (c := '{') (by decide)).toKept

theorem Exact.ended (h : Exact d v) : Ended v := by
  induction h with
  | scalar hv =>
      intro rest hrest
      rw [lexemes_of_exact hv]
      exact hrest.scalar hv
  | array _ ih => exact .array ih
  | object _ _ ih => exact .object ih

end Lexemes

section Reader

open Reader

variable {d : Nat} {v : Json} {frames : List Frame}

-- An item in the first place is read like any other.
theorem foldlM_firstItem (v : Json) (frames : List Frame) :
    v.lexemes.foldlM push (.firstItem frames) =
      v.lexemes.foldlM push (.value (.array [] :: frames)) := by
  cases v <;> rfl

-- Reading `v` goes from in front of it to behind it, with at most `d` more frames inside.
def ReadsBack (d : Nat) (v : Json) : Prop :=
  ∀ frames, frames.length + d ≤ maxDepth →
    v.lexemes.foldlM push (.value frames) = some (.after v frames)

theorem foldlM_itemLexemes (frames : List Frame) (items done : List Json)
    (hitems : ∀ v ∈ items, ReadsBack d v) (hframes : frames.length + 1 + d ≤ maxDepth) :
    (itemLexemes [Lexeme.mark ','] items ++ [Lexeme.mark ']']).foldlM push
        (.after v (.array done :: frames)) =
      some (.after (.array (done.reverse ++ v :: items)) frames) := by
  induction items generalizing v done with
  | nil => simp [itemLexemes, push]
  | cons w items ih =>
      have hw := hitems w (by simp) (.array (v :: done) :: frames) hframes
      have ih := ih (v := w) (v :: done) fun u hu => hitems u (.tail _ hu)
      simpa [itemLexemes, push, hw] using ih

theorem foldlM_memberLexemes (frames : List Frame) (k : String)
    (members done : List (String × Json)) (hvalues : ∀ m ∈ members, ReadsBack d m.2)
    (hframes : frames.length + 1 + d ≤ maxDepth) :
    (memberLexemes [Lexeme.mark ','] members ++ [Lexeme.mark '}']).foldlM push
        (.after v (.object done k :: frames)) =
      some (.after (objectOf (done.reverse ++ (k, v) :: members)) frames) := by
  induction members generalizing k v done with
  | nil => simp [memberLexemes, push]
  | cons m members ih =>
      obtain ⟨l, w⟩ := m
      have hw := hvalues (l, w) (by simp) (.object ((k, v) :: done) l :: frames) hframes
      have ih := ih (v := w) l ((k, v) :: done) fun m hm => hvalues m (.tail _ hm)
      simpa [memberLexemes, push, hw] using ih

theorem ReadsBack.array {items : List Json} (hitems : ∀ v ∈ items, ReadsBack d v) :
    ReadsBack (d + 1) (.array items) := by
  intro frames hframes
  have hdepth : frames.length < maxDepth := by omega
  cases items with
  | nil => simp [lexemes, itemLexemes, push, startValue, hdepth]
  | cons v items =>
      have hv := hitems v (by simp) (.array [] :: frames) (by simp; omega)
      rw [← foldlM_firstItem] at hv
      have hrest := foldlM_itemLexemes (v := v) frames items [] (fun w hw => hitems w (.tail _ hw))
        (by omega)
      simpa [lexemes, itemLexemes, push, startValue, hdepth, hv] using hrest

theorem foldlM_lexemes_object (frames : List Frame) {members : List (String × Json)}
    (hvalues : ∀ m ∈ members, ReadsBack d m.2) (hframes : frames.length + (d + 1) ≤ maxDepth) :
    (lexemes (.object members)).foldlM push (.value frames) =
      some (.after (objectOf members) frames) := by
  have hdepth : frames.length < maxDepth := by omega
  cases members with
  | nil => simp [lexemes, memberLexemes, push, startValue, hdepth, objectOf_eq .nil]
  | cons m members =>
      obtain ⟨k, v⟩ := m
      have hv := hvalues (k, v) (by simp) (.object [] k :: frames) (by simp; omega)
      have hrest := foldlM_memberLexemes (v := v) frames k members []
        (fun m hm => hvalues m (.tail _ hm)) (by omega)
      simpa [lexemes, memberLexemes, push, startValue, hdepth, hv] using hrest

theorem Exact.readsBack (h : Exact d v) : ReadsBack d v := by
  induction h with
  | scalar hv =>
      intro frames _
      rw [lexemes_of_exact hv]
      rfl
  | array _ ih => exact .array ih
  | object hkeys _ ih =>
      intro frames hframes
      rw [foldlM_lexemes_object frames ih hframes, objectOf_eq hkeys]

end Reader

theorem lexemes?_of_layout {xs : List Lexeme} {text : String} (hkept : Kept xs)
    (h : Layout xs text.toList) : lexemes? text = some xs := by
  rw [lexemes?, lexemesFrom?_of_layout h hkept]
  rfl

theorem read?_of_layout {v : Json} {text : String} (hv : Exact Reader.maxDepth v)
    (h : Layout v.lexemes text.toList) : read? text = some v := by
  have hkept := hv.ended [] .nil
  rw [List.append_nil] at hkept
  have hread := hv.readsBack [] (by decide)
  simp [read?, lexemes?_of_layout hkept h, hread, Reader.finish]

theorem read?_text {v : Json} (hv : Exact Reader.maxDepth v) : read? v.text = some v :=
  read?_of_layout hv (layout_text v)

-- Members may stand in any order, and what is read has them in the order of their keys.
theorem read?_of_layout_object {members : List (String × Json)} {text : String}
    (hvalues : ∀ m ∈ members, Exact (Reader.maxDepth - 1) m.2)
    (h : Layout (lexemes (.object members)) text.toList) :
    read? text = some (objectOf members) := by
  have hkept := Ended.object (fun m hm => (hvalues m hm).ended) [] .nil
  rw [List.append_nil] at hkept
  have hread := foldlM_lexemes_object [] (fun m hm => (hvalues m hm).readsBack) (by decide)
  simp [read?, lexemes?_of_layout hkept h, hread, Reader.finish, objectOf_def]

end CallSuite.Json
