import CallSuite.Proofs.Random.Drawable
import CallSuite.Proofs.Tree.Slots

namespace CallSuite

-- The outcomes of the draws to come, in their order. From a draw on that finds none, or one that
-- names no choice, it is void.
structure Script where
  outcomes? : Option (List Nat)

namespace Script

def ofOutcomes (outcomes : List Nat) : Script := ⟨some outcomes⟩

def void : Script := ⟨none⟩

instance : IndexSource Script where
  draw n h s := match s.outcomes? with
    | some (i :: outcomes) => if hi : i < n then (⟨i, hi⟩, ofOutcomes outcomes) else (⟨0, h⟩, void)
    | _ => (⟨0, h⟩, void)

-- There are outcomes on which the step gives `x`, and it uses them up.
def Gives (step : Script → α × Script) (x : α) : Prop :=
  ∃ outcomes, ∀ rest, step (ofOutcomes (outcomes ++ rest)) = (x, ofOutcomes rest)

section Gives

variable {α β : Type} {step : Script → α × Script} {x : α}

theorem Gives.map (h : Gives step x) (f : α → β) :
    Gives (fun s => (f (step s).1, (step s).2)) (f x) := by
  obtain ⟨outcomes, houtcomes⟩ := h
  exact ⟨outcomes, fun rest => by simp only [houtcomes]⟩

-- The outcomes of a later step stand behind those of the first one.
theorem Gives.bind {y : β} (h : Gives step x) (next : α → Script → β × Script)
    (hnext : Gives (next x) y) : Gives (fun s => next (step s).1 (step s).2) y := by
  obtain ⟨first, hfirst⟩ := h
  obtain ⟨others, hothers⟩ := hnext
  refine ⟨first ++ others, fun rest => ?_⟩
  simp only [List.append_assoc, hfirst, hothers]

theorem draw_ofOutcomes {n i : Nat} (h : 0 < n) (hi : i < n) (rest : List Nat) :
    IndexSource.draw n h (ofOutcomes (i :: rest)) = (⟨i, hi⟩, ofOutcomes rest) :=
  dif_pos hi

theorem gives_drawFrom {xs : Array α} (h : 0 < xs.size) (hx : x ∈ xs) :
    Gives (drawFrom xs h) x := by
  obtain ⟨i, hi, rfl⟩ := Array.getElem_of_mem hx
  refine ⟨[i], fun rest => ?_⟩
  simp only [drawFrom, List.singleton_append, draw_ofOutcomes h hi]
  rfl

theorem gives_draw {d : Domain α} (hx : x ∈ d.toList) : Gives d.draw x :=
  gives_drawFrom d.size_pos (Array.mem_toList_iff.mp hx)

theorem gives_times {xs : List α} (h : ∀ x ∈ xs, Gives step x) :
    Gives (times xs.length step) xs := by
  induction xs with
  | nil => exact ⟨[], fun rest => rfl⟩
  | cons x xs ih =>
      obtain ⟨hx, hxs⟩ := List.forall_mem_cons.mp h
      have hrest := (ih hxs).map (x :: ·)
      have hall := hx.bind
        (fun y s => (y :: (times xs.length step s).1, (times xs.length step s).2)) hrest
      simpa only [List.length_cons, funext (times_succ xs.length step)] using hall

-- A container gets its size first and then its members.
theorem gives_members {sizes : Domain Nat} {xs : List α} (hsize : xs.length ∈ sizes.toList)
    (h : ∀ x ∈ xs, Gives step x) (build : List α → β) :
    Gives (fun s => let (n, s) := sizes.draw s
      (build (times n step s).1, (times n step s).2)) (build xs) :=
  (gives_draw hsize).bind (fun n s => (build (times n step s).1, (times n step s).2))
    ((gives_times h).map build)

theorem gives_drawString {alphabet : List Char} {text : String} (hne : alphabet ≠ [])
    (h : ∀ c ∈ text.toList, c ∈ alphabet) : Gives (drawString alphabet text.length) text := by
  have hsize : 0 < alphabet.toArray.size := List.length_pos_iff.mpr hne
  obtain ⟨outcomes, houtcomes⟩ := gives_times fun c hc =>
    gives_drawFrom hsize (List.mem_toArray.mpr (h c hc))
  refine ⟨outcomes, fun rest => ?_⟩
  rw [String.length_toList] at houtcomes
  simp only [drawString, dif_pos hsize, houtcomes, String.ofList_toList]

theorem gives_str {lengths : Domain Nat} {alphabet : List Char} {n : Nat} {text : String}
    (hn : n ∈ lengths.toList) (h : Gives (drawString alphabet n) text) :
    Gives (fun s => let (n, s) := lengths.draw s
      (Value.str (drawString alphabet n s).1, (drawString alphabet n s).2)) (.str text) :=
  (gives_draw hn).bind
    (fun n s => (Value.str (drawString alphabet n s).1, (drawString alphabet n s).2))
    (h.map Value.str)

end Gives

end Script

open Script

section Repeats

variable {α : Type} {kept : List α}

-- The first entry is repeated until the size that is drawn is reached.
theorem Domain.LeavesCount.exists_repeats {sizes : Domain Nat} (h : sizes.LeavesCount kept.length) :
    ∃ repeats : List α, (repeats ++ kept).length ∈ sizes.toList ∧ ∀ x ∈ repeats, x ∈ kept := by
  obtain ⟨n, hn, hle, hzero⟩ := h
  cases kept with
  | nil =>
      obtain rfl : n = 0 := hzero rfl
      exact ⟨[], hn, by simp⟩
  | cons x kept =>
      refine ⟨List.replicate (n - (x :: kept).length) x, ?_, fun y hy => ?_⟩
      · rw [List.length_append, List.length_replicate, Nat.sub_add_cancel hle]
        exact hn
      · rw [List.eq_of_mem_replicate hy]
        exact List.mem_cons_self

end Repeats

-- Every value that the random domains allow is drawn on some outcomes.
theorem Tree.Drawable.gives {node : Node} {v : Value} (h : node.Drawable v) :
    Gives node.randomValue v := by
  induction node generalizing v with
  | int d | bool d | float d =>
      cases v <;> try exact False.elim h
      exact (gives_draw h).map _
  | str alphabet d =>
      cases v <;> try exact False.elim h
      next text =>
      obtain ⟨hchars, hlength⟩ := h
      by_cases hempty : alphabet.isEmpty
      · -- whatever length is drawn, no character is
        rw [if_pos hempty] at hlength
        subst hlength
        have hnil : alphabet.toList = [] := List.isEmpty_iff.mp hempty
        obtain ⟨n, hn⟩ := List.exists_mem_of_ne_nil _ d.random.toList_ne_nil
        have htext : Gives (drawString alphabet.toList n) "" := by
          rw [hnil]
          exact ⟨[], fun rest => rfl⟩
        exact gives_str hn htext
      · rw [if_neg hempty] at hlength
        have hne : alphabet.toList ≠ [] := fun hnil => hempty (List.isEmpty_iff.mpr hnil)
        exact gives_str hlength (gives_drawString hne hchars)
  | collection c d item ih =>
      cases v <;> try exact False.elim h
      next c' members =>
      obtain ⟨rfl, hsize, hmembers⟩ := h
      cases c' with
      | list | tuple => exact gives_members hsize (fun v hv => ih (hmembers v hv)) _
      | set =>
          obtain ⟨hascend, hcount⟩ := hsize
          obtain ⟨repeats, hlength, hrepeats⟩ := hcount.exists_repeats
          have hdrawn : ∀ v ∈ repeats ++ members, Gives item.randomValue v := by
            intro v hv
            exact ih (hmembers v ((List.mem_append.mp hv).elim (hrepeats v) id))
          have hset := gives_members hlength hdrawn Value.setOf
          rwa [Value.setOf, sortDistinct_append_of_mem hascend hrepeats] at hset
  | dict d key value ihk ihv =>
      cases v <;> try exact False.elim h
      next entries =>
      obtain ⟨hascend, hcount, hentries⟩ := h
      obtain ⟨repeats, hlength, hrepeats⟩ := hcount.exists_repeats
      have hdrawn : ∀ e ∈ repeats ++ entries, Gives (fun s : Script =>
          (((key.randomValue s).1, (value.randomValue (key.randomValue s).2).1),
            (value.randomValue (key.randomValue s).2).2)) e := by
        intro e he
        obtain ⟨hkey, hvalue⟩ := hentries e ((List.mem_append.mp he).elim (hrepeats e) id)
        exact (ihk hkey).bind (fun k s => ((k, (value.randomValue s).1), (value.randomValue s).2))
          ((ihv hvalue).map (e.1, ·))
      have hdict := gives_members hlength hdrawn Value.dictOf
      rwa [Value.dictOf, sortDistinct_append_of_mem hascend hrepeats] at hdict

-- A value is drawn on some outcomes exactly where the random domains allow it.
theorem Tree.exists_outcomes_iff_drawable (node : Node) (v : Value) :
    (∃ outcomes, node.randomValue (ofOutcomes outcomes) = (v, ofOutcomes [])) ↔
      node.Drawable v := by
  constructor
  · rintro ⟨outcomes, houtcomes⟩
    have hdrawn := node.drawable_randomValue (ofOutcomes outcomes)
    rwa [houtcomes] at hdrawn
  · intro h
    obtain ⟨outcomes, houtcomes⟩ := h.gives
    exact ⟨outcomes, by simpa using houtcomes []⟩

end CallSuite
