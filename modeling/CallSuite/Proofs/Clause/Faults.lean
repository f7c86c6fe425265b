import CallSuite.Proofs.Clause.Alignment

namespace CallSuite

open CallSuite.Text

-- What is found to be wrong with a text, and not with the slots that it is to fill.
def DomainFault.InText (fault : DomainFault) : Prop := ∀ e, fault ≠ .slot e

namespace Clause

section Scan

variable {items : List Item} {e : String × DomainFault}

theorem takeList_inText {numbers : List Binary64} {commaDue : Bool}
    (h : takeList numbers commaDue items = .error e) : e.2.InText := by
  fun_induction takeList numbers commaDue items with
  | case2 => cases h
  | case7 _ _ _ _ _ ih => exact ih h
  | case10 _ _ _ _ _ _ _ ih => exact ih h
  | _ =>
      cases h
      nofun

theorem takeRange_inText {lo : String} (h : takeRange lo items = .error e) : e.2.InText := by
  unfold takeRange at h
  split at h
  · cases h
    nofun
  · dsimp only at h
    split at h
    · split at h
      · cases h
        nofun
      · split at h <;> cases h
        nofun
    · cases h
      nofun
  · cases h
    nofun

theorem pushToken_inText {token : Token} (h : pushToken token items = .error e) :
    e.2.InText := by
  unfold pushToken at h
  split at h
  · obtain herror | ⟨_, _, ⟨⟩⟩ := bind_eq_error.mp h
    exact takeList_inText herror
  · cases h
  · obtain herror | ⟨_, _, ⟨⟩⟩ := bind_eq_error.mp h
    exact takeRange_inText herror
  · cases h

theorem itemsOf_inText {tokens : List Token} (h : itemsOf tokens = .error e) : e.2.InText :=
  foldrM_error (P := fun e => e.2.InText) (fun _ _ _ => pushToken_inText) h

end Scan

section Entry

variable {x : Binary64} {fault : DomainFault}

theorem boolEntry_inText (h : boolEntry x = .error fault) : fault.InText := by
  unfold boolEntry at h
  split at h <;> cases h
  nofun

theorem intEntry_inText (h : intEntry x = .error fault) : fault.InText := by
  unfold intEntry at h
  split at h
  · split at h <;> cases h
    nofun
  · cases h
    nofun

theorem sizeEntry_inText {kind : Kind} (h : sizeEntry kind x = .error fault) : fault.InText := by
  unfold sizeEntry at h
  split at h
  · cases h
    nofun
  · split at h
    · cases h
      nofun
    · split at h <;> cases h
      nofun

end Entry

theorem Denotes.ne_nil {ts : List Token} {xs : List Binary64} (h : Denotes ts xs) : xs ≠ [] := by
  cases h with
  | list h =>
      rw [ne_eq, eraseDups_eq_nil]
      cases h with
      | mk h => cases h <;> simp
  | range h =>
      cases h with
      | mk _ _ hle _ =>
          have hlow := Int.mem_range_iff.mpr ⟨Int.le_refl _, Int.lt_add_one_of_le hle⟩
          exact List.ne_nil_of_mem (List.mem_map_of_mem hlow)

theorem Converts.eq_nil {α : Type} [BEq α] {entry : Binary64 → Except DomainFault α}
    {xs : List Binary64} (h : Converts entry xs []) : xs = [] := by
  obtain ⟨zs, hzs, hnil⟩ := h
  obtain rfl : zs = [] := eraseDups_eq_nil.mp hnil.symm
  exact List.map_eq_nil_iff.mp hzs

section Fill

variable {α : Type} {role : Role} {kind : Kind} {s : Slots α} {items : List Item}
  {ts : List Token} {e : String × DomainFault}

-- A clause has a number, so what it fills gets an entry.
theorem Reads.fill_inText {entries : List Binary64 → Except DomainFault (List α)}
    (h : Reads items ts) (hs : s.get role = none)
    (hentries : ∀ xs fault, entries xs = .error fault → fault.InText)
    (hnil : ∀ xs, entries xs = .ok [] → xs = [])
    (hfill : Clause.fill role kind entries s items = .error e) : e.2.InText := by
  unfold Clause.fill at hfill
  split at hfill
  · cases hfill
    nofun
  next xs rest =>
    obtain herror | ⟨ys, hys, hassign⟩ := bind_eq_error.mp hfill
    · obtain ⟨fault, hfault, rfl⟩ := mapError_eq_error.mp herror
      exact hentries xs fault hfault
    · obtain herror | ⟨_, _, ⟨⟩⟩ := bind_eq_error.mp hassign
      obtain ⟨slotError, hslot, _⟩ := mapError_eq_error.mp herror
      rw [mapError_eq_ok] at hys
      have hne : ys ≠ [] := by
        rintro rfl
        cases h with
        | values hxs _ => exact hxs.ne_nil (hnil xs hys)
      obtain ⟨s', hs'⟩ := s.exists_fills role hne
      rw [Slots.assign_eq_ok.mpr ⟨hs, hs'⟩] at hslot
      cases hslot
  · cases hfill
    nofun

theorem Reads.fillDistinct_inText [BEq α] [LawfulBEq α] [Hashable α]
    {entry : Binary64 → Except DomainFault α} (h : Reads items ts) (hs : s.get role = none)
    (hentry : ∀ x fault, entry x = .error fault → fault.InText)
    (hfill : Clause.fillDistinct role kind entry s items = .error e) : e.2.InText := by
  refine h.fill_inText hs (fun xs fault hxs => ?_) (fun xs hxs => ?_) hfill
  · obtain ⟨x, _, hx⟩ := exists_of_mapM_eq_error (map_eq_error.mp hxs)
    exact hentry x fault hx
  · exact (distinct_mapM_eq_ok.mp hxs).eq_nil

end Fill

theorem takeDelim_inText {c : Char} {items : List Item} {e : String × DomainFault}
    (h : takeDelim c items = .error e) : e.2.InText := by
  unfold takeDelim at h
  split at h
  · cases h
    nofun
  · split at h <;> cases h
    nofun
  · cases h
    nofun

-- Where no node has its domain for the role yet, no node is refused one.
theorem Reads.align_inText {role : Role} {tree : TypeTree} {items : List Item} {ts : List Token}
    {e : String × DomainFault} (h : Reads items ts) (htree : tree.Unfilled role)
    (halign : (Clause.align role tree items).2 = .error e) : e.2.InText := by
  induction tree generalizing items ts with
  | int s =>
      unfold Clause.align at halign
      split at halign <;> cases halign
      next hfill => exact h.fillDistinct_inText htree (fun _ _ => intEntry_inText) hfill
  | bool s =>
      unfold Clause.align at halign
      split at halign <;> cases halign
      next hfill => exact h.fillDistinct_inText htree (fun _ _ => boolEntry_inText) hfill
  | float s =>
      unfold Clause.align at halign
      split at halign <;> cases halign
      next hfill =>
        refine h.fill_inText htree (fun _ _ herror => ?_) (fun _ => Except.ok.inj) hfill
        cases herror
  | str alphabet s =>
      unfold Clause.align at halign
      split at halign <;> cases halign
      next hfill => exact h.fillDistinct_inText htree (fun _ _ => sizeEntry_inText) hfill
  | collection c s item ih =>
      obtain ⟨hs, hitem⟩ := htree
      unfold Clause.align at halign
      split at halign
      next hfill =>
        cases halign
        exact h.fillDistinct_inText hs (fun _ _ => sizeEntry_inText) hfill
      next hfill =>
        obtain ⟨_, _, _, _, _, _, hrest⟩ := h.fillDistinct hfill
        split at halign
        next hopen =>
          cases halign
          exact takeDelim_inText hopen
        next hopen =>
          rw [takeDelim_eq_ok.mp hopen] at hrest
          obtain ⟨_, _, hbelow⟩ := hrest.delim_inv
          exact ih hbelow hitem halign
  | dict s key value ihk ihv =>
      obtain ⟨hs, hkey, hvalue⟩ := htree
      unfold Clause.align at halign
      split at halign
      next hfill =>
        cases halign
        exact h.fillDistinct_inText hs (fun _ _ => sizeEntry_inText) hfill
      next hfill =>
        obtain ⟨_, _, _, _, _, _, hrest⟩ := h.fillDistinct hfill
        split at halign
        next hopen =>
          cases halign
          exact takeDelim_inText hopen
        next hopen =>
          rw [takeDelim_eq_ok.mp hopen] at hrest
          obtain ⟨_, _, hbelow⟩ := hrest.delim_inv
          split at halign
          next halignKey =>
            cases halign
            exact ihk hbelow hkey (congrArg Prod.snd halignKey)
          next halignKey =>
            obtain ⟨_, _, _, _, hafter⟩ := hbelow.align halignKey
            split at halign
            next hcolon =>
              cases halign
              exact takeDelim_inText hcolon
            next hcolon =>
              rw [takeDelim_eq_ok.mp hcolon] at hafter
              obtain ⟨_, _, hvalueItems⟩ := hafter.delim_inv
              exact ihv hvalueItems hvalue halign

end Clause

theorem TypeTree.decorate_inText {role : Role} {tree : TypeTree} {text : String} {e : DomainError}
    (htree : tree.Unfilled role) (h : (tree.decorate role text).2 = .error e) :
    e.fault.InText := by
  cases hitems : Clause.itemsOf (Clause.tokens text) with
  | error e =>
      rw [decorate_of_scan_error hitems] at h
      cases h
      exact Clause.itemsOf_inText hitems
  | ok items =>
      have hreads : Clause.Reads items (Clause.tokens text) := by
        simpa using Clause.Reads.nil.foldrM hitems
      rw [decorate_of_scan hitems] at h
      obtain ⟨fault, hfault, rfl⟩ := mapError_eq_error.mp h
      obtain halign | ⟨rest, _, hfinish⟩ := bind_eq_error.mp hfault
      · exact hreads.align_inText htree halign
      · cases rest with
        | nil => cases hfinish
        | cons top rest =>
            cases hfinish
            nofun

end CallSuite
