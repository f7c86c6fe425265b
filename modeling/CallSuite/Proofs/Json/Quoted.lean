import CallSuite.Json.Quoted
import CallSuite.Proofs.Scanning
import Mathlib.Data.Nat.Basic
import Mathlib.Tactic.SplitIfs

namespace CallSuite.Json

def escaped (c : Char) : List Char := (escapeChar "" c).toList

theorem toList_escapeChar (out : String) (c : Char) :
    (escapeChar out c).toList = out.toList ++ escaped c := by
  unfold escaped escapeChar
  split_ifs <;> simp

theorem toList_quote (out s : String) :
    (quote out s).toList = out.toList ++ '"' :: (s.toList.flatMap escaped ++ ['"']) := by
  simp [quote, toList_foldl toList_escapeChar]

section Strings

variable {c : Char} {cs rest done : List Char}

theorem takeString?_escape (h : takeEscape? cs = some (c, rest)) :
    takeString? done ('\\' :: cs) = takeString? (c :: done) rest := by
  rw [takeString?, if_neg (by decide), if_pos rfl]
  split
  next hnone => rw [h] at hnone; cases hnone
  next hsome => rw [h] at hsome; cases hsome; rfl

theorem takeString?_plain (hquote : c ≠ '"') (hbackslash : c ≠ '\\') (hc : 0x20 ≤ c.toNat) :
    takeString? done (c :: cs) = takeString? (c :: done) cs := by
  rw [takeString?, if_neg hquote, if_neg hbackslash, if_neg (Nat.not_lt.mpr hc)]

theorem hexDigit?_digitChar {n : Nat} (hn : n < 16) : hexDigit? (Nat.digitChar n) = some n := by
  decide +revert

-- A control character has no more than two hexadecimal digits.
theorem takeEscape?_control (hc : c.toNat < 0x20) :
    takeEscape? ('u' :: '0' :: '0' :: Nat.digitChar (c.toNat / 16) ::
      Nat.digitChar (c.toNat % 16) :: cs) = some (c, cs) := by
  have hhigh : hexDigit? (Nat.digitChar (c.toNat / 16)) = some (c.toNat / 16) :=
    hexDigit?_digitChar (by omega)
  have hlow : hexDigit? (Nat.digitChar (c.toNat % 16)) = some (c.toNat % 16) :=
    hexDigit?_digitChar (by omega)
  have hzero : hexDigit? '0' = some 0 := rfl
  have hunit : 16 * (c.toNat / 16) + c.toNat % 16 = c.toNat := Nat.div_add_mod _ _
  have hlead : isLead c.toNat = false := by simp [isLead]; omega
  have htrail : isTrail c.toNat = false := by simp [isTrail]; omega
  simp [takeEscape?, takeUnits?, takeUnit?, hzero, hhigh, hlow, hunit, hlead, htrail]

theorem takeString?_escaped (c : Char) (cs : List Char) :
    takeString? done (escaped c ++ cs) = takeString? (c :: done) cs := by
  unfold escaped escapeChar
  split_ifs with hquote hbackslash hbell htab hline hfeed hreturn hcontrol
  · exact hquote ▸ takeString?_escape rfl
  · exact hbackslash ▸ takeString?_escape rfl
  · exact hbell ▸ takeString?_escape rfl
  · exact htab ▸ takeString?_escape rfl
  · exact hline ▸ takeString?_escape rfl
  · exact hfeed ▸ takeString?_escape rfl
  · exact hreturn ▸ takeString?_escape rfl
  · have htext : ((("" ++ "\\u00").push (Nat.digitChar (c.toNat / 16))).push
        (Nat.digitChar (c.toNat % 16))).toList = '\\' :: 'u' :: '0' :: '0' ::
          [Nat.digitChar (c.toNat / 16), Nat.digitChar (c.toNat % 16)] := by simp
    rw [htext]
    exact takeString?_escape (takeEscape?_control hcontrol)
  · have htext : ("".push c).toList = [c] := by simp
    rw [htext]
    exact takeString?_plain hquote hbackslash (Nat.le_of_not_lt hcontrol)

theorem takeString?_quoted (cs rest : List Char) :
    takeString? done (cs.flatMap escaped ++ '"' :: rest) =
      some (String.ofList (done.reverse ++ cs), rest) := by
  induction cs generalizing done with
  | nil => rw [List.flatMap_nil, List.nil_append, List.append_nil, takeString?, if_pos rfl]
  | cons c cs ih =>
      rw [List.flatMap_cons, List.append_assoc, takeString?_escaped, ih]
      simp

end Strings

end CallSuite.Json
