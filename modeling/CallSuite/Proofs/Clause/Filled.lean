import CallSuite.Proofs.Clause.Grammar
import CallSuite.Proofs.Tree.Domains

namespace CallSuite

open CallSuite.Text

-- What a slot holds, if it is filled.
def Slot.Holds (P : List α → Prop) : Slot α → Prop
  | none => True
  | some d => P d.toList

theorem Slots.Fills.holds {s s' : Slots α} {role : Role} {xs : List α} {P : List α → Prop}
    (h : s.Fills role xs s') (hxs : P xs) : Slot.Holds P (s'.get role) := by
  obtain ⟨d, rfl, hd⟩ := h.exists_get
  rw [hd]
  exact hxs

namespace Clause

variable {us ts : List Token} {role : Role} {tree tree' : TypeTree}

theorem infix_left {vs : List Token} (h : us ++ vs <:+: ts) : us <:+: ts :=
  (List.prefix_append us vs).isInfix.trans h

theorem infix_right {vs : List Token} {t : Token} (h : us ++ t :: vs <:+: ts) : vs <:+: ts :=
  ((List.suffix_cons t vs).trans (List.suffix_append us _)).isInfix.trans h

-- What all clauses of a text give, all nodes have that got their domains from it.
theorem Written.domains_all {int : List Int → Prop} {bool : List Bool → Prop}
    {float : List Binary64 → Prop} {size : List Nat → Prop} (h : Written role tree us tree')
    (hsub : us <:+: ts) (hint : ∀ vs ys, vs <:+: ts → Entries intEntry vs ys → int ys)
    (hbool : ∀ vs ys, vs <:+: ts → Entries boolEntry vs ys → bool ys)
    (hfloat : ∀ vs ys, vs <:+: ts → Denotes vs ys → float ys)
    (hsize : ∀ kind vs ys, vs <:+: ts → Entries (sizeEntry kind) vs ys → size ys) :
    (tree'.domains role).All (Slot.Holds int) (Slot.Holds bool) (Slot.Holds float)
      (Slot.Holds size) := by
  induction h with
  | int h hfill => exact hfill.holds (hint _ _ hsub h)
  | bool h hfill => exact hfill.holds (hbool _ _ hsub h)
  | float h hfill => exact hfill.holds (hfloat _ _ hsub h)
  | str h hfill => exact hfill.holds (hsize _ _ _ hsub h)
  | collection h hfill _ ih =>
      exact ⟨hfill.holds (hsize _ _ _ (infix_left hsub) h), ih (infix_right hsub)⟩
  | dict h hfill _ _ ihk ihv =>
      have hchildren := infix_right hsub
      exact ⟨hfill.holds (hsize _ _ _ (infix_left hsub) h), ihk (infix_left hchildren),
        ihv (infix_right hchildren)⟩

theorem Written.alphabets_eq (h : Written role tree us tree') :
    tree'.alphabets = tree.alphabets := by
  induction h with
  | int | bool | float | str => rfl
  | collection _ _ _ ih => exact ih
  | dict _ _ _ _ ihk ihv => simp only [Tree.alphabets, ihk, ihv]

end Clause

end CallSuite
