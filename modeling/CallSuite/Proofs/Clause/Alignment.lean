import CallSuite.Proofs.Clause.Grammar

namespace CallSuite.Clause

open CallSuite.Text

section Entry

variable {α : Type} {entry : Binary64 → Except DomainFault α} {xs : List Binary64} {ys : List α}

variable [BEq α]

theorem distinct_mapM_eq_ok [LawfulBEq α] [Hashable α] :
    (distinct <$> xs.mapM entry) = .ok ys ↔ Converts entry xs ys := by
  constructor
  · intro h
    cases hxs : xs.mapM entry with
    | error e =>
        rw [hxs] at h
        cases h
    | ok zs =>
        rw [hxs] at h
        cases h
        exact ⟨zs, mapM_eq_ok.mp hxs, distinct_eq_eraseDups zs⟩
  · rintro ⟨zs, hzs, rfl⟩
    rw [mapM_eq_ok.mpr hzs, ← distinct_eq_eraseDups]
    rfl

-- On numbers that are all entries the conversion is a function.
def converted [Inhabited α] (entry : Binary64 → Except DomainFault α) (x : Binary64) : α :=
  (entry x).toOption.getD default

theorem converts_iff [Inhabited α] :
    Converts entry xs ys ↔ (∀ x ∈ xs, entry x = .ok (converted entry x)) ∧
      ys = (xs.map (converted entry)).eraseDups := by
  constructor
  · rintro ⟨zs, hzs, rfl⟩
    have hentry : ∀ x ∈ xs, entry x = .ok (converted entry x) := by
      intro x hx
      have hmem : entry x ∈ zs.map Except.ok := hzs ▸ List.mem_map_of_mem hx
      obtain ⟨y, _, hy⟩ := List.mem_map.mp hmem
      rw [converted, ← hy]
      rfl
    have hmap : zs.map (.ok : α → Except DomainFault α) = (xs.map (converted entry)).map .ok := by
      rw [← hzs, List.map_map]
      exact List.map_congr_left hentry
    have hzs' : zs = xs.map (converted entry) :=
      List.map_injective_iff.mpr (fun _ _ => Except.ok.inj) hmap
    exact ⟨hentry, hzs' ▸ rfl⟩
  · rintro ⟨hentry, rfl⟩
    refine ⟨xs.map (converted entry), ?_, rfl⟩
    rw [List.map_map]
    exact List.map_congr_left hentry

theorem converts_eraseDups [LawfulBEq α] [Inhabited α] :
    Converts entry xs.eraseDups ys ↔ Converts entry xs ys := by
  rw [converts_iff, converts_iff, eraseDups_map_eraseDups]
  simp only [List.mem_eraseDups]

-- What a list drops before the conversion would have been dropped after it.
theorem entries_iff [LawfulBEq α] [Inhabited α] {ts : List Token} :
    Entries entry ts ys ↔ ∃ xs, Denotes ts xs ∧ Converts entry xs ys := by
  constructor
  · rintro ⟨xs, h | h, hys⟩
    · exact ⟨_, .list h, converts_eraseDups.mpr hys⟩
    · exact ⟨_, .range h, hys⟩
  · rintro ⟨_, h, hys⟩
    cases h with
    | list h => exact ⟨_, .inl h, converts_eraseDups.mp hys⟩
    | range h => exact ⟨_, .inr h, hys⟩

end Entry

theorem takeDelim_eq_ok {c : Char} {items rest : List Item} :
    takeDelim c items = .ok rest ↔ items = .delim c :: rest := by
  unfold takeDelim
  split
  · simp
  · split <;> simp_all
  · simp_all

section Fill

variable {α : Type} {role : Role} {kind : Kind} {s s' : Slots α} {items rest : List Item}
  {ts : List Token} {ys : List α}

section Entries

variable {entries : List Binary64 → Except DomainFault (List α)} {xs : List Binary64}

theorem fill_eq_ok : fill role kind entries s items = .ok (s', rest) ↔
    ∃ xs ys, items = .values xs :: rest ∧ entries xs = .ok ys ∧
      s.get role = none ∧ s.Fills role ys s' := by
  constructor
  · intro h
    unfold fill at h
    split at h <;> try cases h
    obtain ⟨ys, hys, h⟩ := bind_eq_ok.mp h
    obtain ⟨s', hs', ⟨⟩⟩ := bind_eq_ok.mp h
    rw [mapError_eq_ok] at hys hs'
    exact ⟨_, ys, rfl, hys, Slots.assign_eq_ok.mp hs'⟩
  · rintro ⟨xs, ys, rfl, hys, hassign⟩
    rw [fill, hys, bind_eq_ok]
    refine ⟨ys, rfl, bind_eq_ok.mpr ⟨s', ?_, rfl⟩⟩
    rw [Slots.assign_eq_ok.mpr hassign]
    rfl

theorem Reads.fill (h : Reads items ts)
    (hfill : fill role kind entries s items = .ok (s', rest)) :
    ∃ us vs xs ys, ts = us ++ vs ∧ Denotes us xs ∧ entries xs = .ok ys ∧ s.Fills role ys s' ∧
      Reads rest vs := by
  obtain ⟨xs, ys, rfl, hys, _, hs'⟩ := fill_eq_ok.mp hfill
  cases h with
  | values hxs h => exact ⟨_, _, xs, ys, rfl, hxs, hys, hs', h⟩

theorem Denotes.exists_fill (h : Denotes ts xs) (hys : entries xs = .ok ys)
    (hs : s.get role = none) (hs' : s.Fills role ys s') (kind : Kind)
    (hitems : items.head? ≠ some (.delim '~')) :
    ∃ above, ts.foldrM pushToken items = .ok above ∧
      fill role kind entries s above = .ok (s', items) :=
  ⟨_, h.foldrM hitems, fill_eq_ok.mpr ⟨xs, ys, rfl, hys, hs, hs'⟩⟩

end Entries

variable [BEq α] [LawfulBEq α] [Hashable α] [Inhabited α]
  {entry : Binary64 → Except DomainFault α}

theorem Reads.fillDistinct (h : Reads items ts)
    (hfill : fillDistinct role kind entry s items = .ok (s', rest)) :
    ∃ us vs ys, ts = us ++ vs ∧ Entries entry us ys ∧ s.Fills role ys s' ∧ Reads rest vs := by
  obtain ⟨us, vs, xs, ys, hts, hxs, hys, hs', hrest⟩ := h.fill hfill
  exact ⟨us, vs, ys, hts, entries_iff.mpr ⟨xs, hxs, distinct_mapM_eq_ok.mp hys⟩, hs', hrest⟩

theorem Entries.exists_fill (h : Entries entry ts ys) (hs : s.get role = none)
    (hs' : s.Fills role ys s') (kind : Kind) (hitems : items.head? ≠ some (.delim '~')) :
    ∃ above, ts.foldrM pushToken items = .ok above ∧
      fillDistinct role kind entry s above = .ok (s', items) := by
  obtain ⟨xs, hxs, hys⟩ := entries_iff.mp h
  exact hxs.exists_fill (distinct_mapM_eq_ok.mpr hys) hs hs' kind hitems

end Fill

section Align

variable {role : Role} {tree' : TypeTree} {items rest : List Item} {ts : List Token}

theorem align_collection_eq_ok {c : Collection} {s : Slots Nat} {item : TypeTree} :
    align role (.collection c s item) items = (tree', .ok rest) ↔ ∃ s' item' below,
      fillSizes role (.collection c) s items = .ok (s', .delim '(' :: below) ∧
      align role item below = (item', .ok rest) ∧ tree' = .collection c s' item' := by
  constructor
  · intro h
    unfold align at h
    split at h
    · cases h
    next s' _ hfill =>
      split at h
      · cases h
      next below hopen =>
        rw [takeDelim_eq_ok] at hopen
        simp only [Prod.mk.injEq] at h
        exact ⟨s', _, below, hopen ▸ hfill, Prod.ext rfl h.2, h.1.symm⟩
  · rintro ⟨s', item', below, hfill, hitem, rfl⟩
    simp only [align, hfill, takeDelim_eq_ok.mpr rfl, hitem]

theorem align_dict_eq_ok {s : Slots Nat} {key value : TypeTree} :
    align role (.dict s key value) items = (tree', .ok rest) ↔ ∃ s' key' value' below after,
      fillSizes role .dict s items = .ok (s', .delim '(' :: below) ∧
      align role key below = (key', .ok (.delim ':' :: after)) ∧
      align role value after = (value', .ok rest) ∧ tree' = .dict s' key' value' := by
  constructor
  · intro h
    unfold align at h
    split at h
    · cases h
    next s' _ hfill =>
      split at h
      · cases h
      next below hopen =>
        split at h
        · cases h
        next key' _ hkey =>
          split at h
          · cases h
          next after hcolon =>
            rw [takeDelim_eq_ok] at hopen hcolon
            simp only [Prod.mk.injEq] at h
            exact ⟨s', key', _, below, after, hopen ▸ hfill, hcolon ▸ hkey, Prod.ext rfl h.2,
              h.1.symm⟩
  · rintro ⟨s', key', value', below, after, hfill, hkey, hvalue, rfl⟩
    simp only [align, hfill, takeDelim_eq_ok.mpr rfl, hkey, hvalue]

theorem Reads.delim_inv {c : Char} (h : Reads (.delim c :: rest) ts) :
    ∃ us, ts = .delim c :: us ∧ Reads rest us := by
  cases h with
  | delim h => exact ⟨_, rfl, h⟩

-- Every node takes its own clause and its delimiters off the tokens that are left.
theorem Reads.align {tree : TypeTree} (h : Reads items ts)
    (halign : align role tree items = (tree', .ok rest)) :
    ∃ us vs, ts = us ++ vs ∧ Written role tree us tree' ∧ Reads rest vs := by
  induction tree generalizing items ts tree' rest with
  | int s =>
      unfold Clause.align at halign
      split at halign <;> cases halign
      next hfill =>
        obtain ⟨us, vs, ys, hts, hus, hs', hrest⟩ := h.fillDistinct hfill
        exact ⟨us, vs, hts, .int hus hs', hrest⟩
  | bool s =>
      unfold Clause.align at halign
      split at halign <;> cases halign
      next hfill =>
        obtain ⟨us, vs, ys, hts, hus, hs', hrest⟩ := h.fillDistinct hfill
        exact ⟨us, vs, hts, .bool hus hs', hrest⟩
  | float s =>
      unfold Clause.align at halign
      split at halign <;> cases halign
      next hfill =>
        obtain ⟨us, vs, xs, _, hts, hus, ⟨⟩, hs', hrest⟩ := h.fill hfill
        exact ⟨us, vs, hts, .float hus hs', hrest⟩
  | str alphabet s =>
      unfold Clause.align at halign
      split at halign <;> cases halign
      next hfill =>
        obtain ⟨us, vs, ys, hts, hus, hs', hrest⟩ := h.fillDistinct hfill
        exact ⟨us, vs, hts, .str hus hs', hrest⟩
  | collection c s item ih =>
      obtain ⟨s', item', below, hfill, hitem, rfl⟩ := align_collection_eq_ok.mp halign
      obtain ⟨us, _, ys, rfl, hus, hs', hopen⟩ := h.fillDistinct hfill
      obtain ⟨_, rfl, hbelow⟩ := hopen.delim_inv
      obtain ⟨ws, vs, rfl, hws, hrest⟩ := ih hbelow hitem
      exact ⟨us ++ .delim '(' :: ws, vs, by simp, .collection hus hs' hws, hrest⟩
  | dict s key value ihk ihv =>
      obtain ⟨s', key', value', below, after, hfill, hkey, hvalue, rfl⟩ :=
        align_dict_eq_ok.mp halign
      obtain ⟨us, _, ys, rfl, hus, hs', hopen⟩ := h.fillDistinct hfill
      obtain ⟨_, rfl, hbelow⟩ := hopen.delim_inv
      obtain ⟨ks, _, rfl, hks, hcolon⟩ := ihk hbelow hkey
      obtain ⟨_, rfl, hafter⟩ := hcolon.delim_inv
      obtain ⟨ws, vs, rfl, hws, hrest⟩ := ihv hafter hvalue
      exact ⟨us ++ .delim '(' :: (ks ++ .delim ':' :: ws), vs, by simp,
        .dict hus hs' hks hws, hrest⟩

-- Whatever stands to the right, the items of the tokens are the ones that the nodes take.
theorem Written.exists_align {tree : TypeTree} (h : Written role tree ts tree')
    (htree : tree.Unfilled role) (hitems : items.head? ≠ some (.delim '~')) :
    ∃ above, ts.foldrM pushToken items = .ok above ∧
      align role tree above = (tree', .ok items) := by
  induction h generalizing items with
  | int h hs' =>
      obtain ⟨above, hscan, hfill⟩ := h.exists_fill htree hs' .int hitems
      exact ⟨above, hscan, by rw [align, hfill]⟩
  | bool h hs' =>
      obtain ⟨above, hscan, hfill⟩ := h.exists_fill htree hs' .bool hitems
      exact ⟨above, hscan, by rw [align, hfill]⟩
  | float h hs' =>
      obtain ⟨above, hscan, hfill⟩ := h.exists_fill rfl htree hs' .float hitems
      exact ⟨above, hscan, by rw [align, hfill]⟩
  | str h hs' =>
      obtain ⟨above, hscan, hfill⟩ := h.exists_fill htree hs' .str hitems
      exact ⟨above, hscan, by rw [align, fillSizes, hfill]⟩
  | collection h hs' _ ih =>
      obtain ⟨hs, hitem⟩ := htree
      obtain ⟨below, hbelow, halign⟩ := ih hitem hitems
      have hnext : (Item.delim '(' :: below).head? ≠ some (.delim '~') := by simp
      obtain ⟨above, hscan, hfill⟩ := h.exists_fill hs hs' (.collection _) hnext
      refine ⟨above, ?_, align_collection_eq_ok.mpr ⟨_, _, below, hfill, halign, rfl⟩⟩
      have hopen := foldrM_cons_of_eq_ok (t := .delim '(') hbelow
      exact (foldrM_append_of_eq_ok hopen).trans hscan
  | dict h hs' _ _ ihk ihv =>
      obtain ⟨hs, hkey, hvalue⟩ := htree
      obtain ⟨after, hafter, halignValue⟩ := ihv hvalue hitems
      have hcolonNext : (Item.delim ':' :: after).head? ≠ some (.delim '~') := by simp
      obtain ⟨below, hbelow, halignKey⟩ := ihk hkey hcolonNext
      have hopenNext : (Item.delim '(' :: below).head? ≠ some (.delim '~') := by simp
      obtain ⟨above, hscan, hfill⟩ := h.exists_fill hs hs' .dict hopenNext
      refine ⟨above, ?_, align_dict_eq_ok.mpr
        ⟨_, _, _, below, after, hfill, halignKey, halignValue, rfl⟩⟩
      have hcolon := foldrM_cons_of_eq_ok (t := .delim ':') hafter
      have hopen := foldrM_cons_of_eq_ok (t := .delim '(')
        ((foldrM_append_of_eq_ok hcolon).trans hbelow)
      exact (foldrM_append_of_eq_ok hopen).trans hscan

end Align

end CallSuite.Clause

namespace CallSuite.TypeTree

open CallSuite.Clause CallSuite.Text

variable {role : Role} {tree tree' : TypeTree} {text : String} {items : List Item}

-- The scan knows no tree, so what it refuses changes none.
theorem decorate_of_scan_error {e : String × DomainFault}
    (h : itemsOf (tokens text) = .error e) (tree : TypeTree) (role : Role) :
    tree.decorate role text = (tree, .error ⟨text, role, e.1, e.2⟩) := by
  unfold decorate
  rw [h]
  rfl

theorem decorate_of_scan (h : itemsOf (tokens text) = .ok items) (tree : TypeTree) (role : Role) :
    tree.decorate role text = ((align role tree items).1,
      ((align role tree items).2 >>= finish).mapError fun e => ⟨text, role, e.1, e.2⟩) := by
  unfold decorate
  rw [h]

-- This needs no empty slots: where one is filled, no decoration succeeds.
theorem written_of_decorate_eq_ok (h : tree.decorate role text = (tree', .ok ())) :
    Written role tree (tokens text) tree' := by
  cases hitems : itemsOf (tokens text) with
  | error e =>
      rw [decorate_of_scan_error hitems] at h
      cases h
  | ok items =>
      simp only [decorate_of_scan hitems, Prod.mk.injEq, mapError_eq_ok, bind_eq_ok] at h
      obtain ⟨htree', rest, hrest, hfinish⟩ := h
      have halign : align role tree items = (tree', .ok rest) := Prod.ext htree' hrest
      have hreads : Reads items (tokens text) := by
        simpa using Reads.nil.foldrM hitems
      obtain ⟨us, vs, hts, hwritten, hvs⟩ := hreads.align halign
      cases hvs with
      | nil =>
          rw [List.append_nil] at hts
          exact hts ▸ hwritten
      | _ => cases hfinish

theorem decorate_of_written (htree : tree.Unfilled role)
    (h : Written role tree (tokens text) tree') : tree.decorate role text = (tree', .ok ()) := by
  have hend : ([] : List Item).head? ≠ some (.delim '~') := by simp
  obtain ⟨items, hitems, halign⟩ := h.exists_align htree hend
  rw [decorate_of_scan hitems, halign]
  rfl

theorem decorate_eq_ok_iff_written {role : Role} {tree : TypeTree} (h : tree.Unfilled role)
    (text : String) (tree' : TypeTree) :
    tree.decorate role text = (tree', .ok ()) ↔ Written role tree (tokens text) tree' :=
  ⟨written_of_decorate_eq_ok, decorate_of_written h⟩

def dictOfIntAndFloat : TypeTree := .dict .empty (.int .empty) (.float .empty)

def dictOfBitsAndZeros : TypeTree :=
  .dict ⟨some (.cons 1 []), none⟩ (.int ⟨some (.cons 0 [1]), none⟩)
    (.float ⟨some (.cons ⟨0x8000000000000000⟩ [⟨0⟩]), none⟩)

theorem decorate_dictOfIntAndFloat : dictOfIntAndFloat.Unfilled .exhaustive ∧
    dictOfIntAndFloat.decorate .exhaustive "[1,1](0~1:[-0,0,0]" =
      (dictOfBitsAndZeros, .ok ()) := by
  have hunfilled : dictOfIntAndFloat.Unfilled .exhaustive := ⟨rfl, rfl, rfl⟩
  refine ⟨hunfilled, (decorate_eq_ok_iff_written hunfilled _ _).mpr ?_⟩
  have hone : Binary64.read? "1".toList = some ⟨0x3ff0000000000000⟩ := by decide +kernel
  have hzero : Binary64.read? "0".toList = some ⟨0⟩ := by decide
  have hnegative : Binary64.read? "-0".toList = some ⟨0x8000000000000000⟩ := by decide
  have hrange : RangeClause [.word "0", .delim '~', .word "1"] _ :=
    .mk (a := 0) (b := 1) (by decide) (by decide) (by decide) (by decide)
  have hsize : Entries (sizeEntry .dict) _ [1] :=
    ⟨_, .inl (.mk (.cons hone (.last hone))), [1, 1], by decide +kernel, by decide⟩
  have hkey : Entries intEntry _ [0, 1] :=
    ⟨_, .inr hrange, [0, 1], by decide +kernel, by decide⟩
  have hvalue := Denotes.list (.mk (.cons hnegative (.cons hzero (.last hzero))))
  exact .dict hsize ⟨.cons 1 [], rfl, rfl⟩ (.int hkey ⟨.cons 0 [1], rfl, rfl⟩)
    (.float hvalue ⟨.cons _ [_], by decide, rfl⟩)

end CallSuite.TypeTree
