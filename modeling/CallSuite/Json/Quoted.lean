namespace CallSuite.Json

def hexDigit? (c : Char) : Option Nat :=
  if '0' ≤ c ∧ c ≤ '9' then some (c.toNat - '0'.toNat)
  else if 'a' ≤ c ∧ c ≤ 'f' then some (c.toNat - 'a'.toNat + 10)
  else if 'A' ≤ c ∧ c ≤ 'F' then some (c.toNat - 'A'.toNat + 10)
  else none

-- Four digits name one unit.
def takeUnit? : List Char → Option (Nat × List Char)
  | a :: b :: c :: d :: cs => do
    let n := 4096 * (← hexDigit? a) + 256 * (← hexDigit? b) + 16 * (← hexDigit? c) + (← hexDigit? d)
    return (n, cs)
  | _ => none

def isLead (n : Nat) : Bool := 0xd800 ≤ n && n < 0xdc00

def isTrail (n : Nat) : Bool := 0xdc00 ≤ n && n < 0xe000

-- A character beyond `U+FFFF` is named by two units. Half of such a pair is no character.
def takeUnits? (cs : List Char) : Option (Char × List Char) := do
  let (n, cs) ← takeUnit? cs
  if isTrail n then none
  else if isLead n then match cs with
    | '\\' :: 'u' :: cs =>
      let (m, cs) ← takeUnit? cs
      if isTrail m then
        return (Char.ofNat (0x10000 + (n - 0xd800) * 0x400 + (m - 0xdc00)), cs)
      else none
    | _ => none
  else return (Char.ofNat n, cs)

-- What a backslash and the text after it stand for.
def takeEscape? : List Char → Option (Char × List Char)
  | '"' :: cs => some ('"', cs)
  | '\\' :: cs => some ('\\', cs)
  | '/' :: cs => some ('/', cs)
  | 'b' :: cs => some ('\x08', cs)
  | 'f' :: cs => some ('\x0c', cs)
  | 'n' :: cs => some ('\n', cs)
  | 'r' :: cs => some ('\r', cs)
  | 't' :: cs => some ('\t', cs)
  | 'u' :: cs => takeUnits? cs
  | _ => none

theorem length_takeUnit? (h : takeUnit? cs = some (n, rest)) : rest.length < cs.length := by
  unfold takeUnit? at h
  split at h
  · simp only [Option.bind_eq_bind, Option.bind_eq_some_iff, Option.pure_def,
      Option.some.injEq, Prod.mk.injEq] at h
    obtain ⟨_, _, _, _, _, _, _, _, _, rfl⟩ := h
    simp only [List.length_cons]
    omega
  · cases h

theorem length_takeUnits? (h : takeUnits? cs = some (c, rest)) : rest.length < cs.length := by
  unfold takeUnits? at h
  simp only [Option.bind_eq_bind, Option.bind_eq_some_iff] at h
  obtain ⟨⟨n, mid⟩, hn, h⟩ := h
  have hmid := length_takeUnit? hn
  dsimp only at h
  split at h
  · cases h
  · split at h
    · split at h
      · rename_i rest'
        simp only [Option.bind_eq_some_iff] at h
        obtain ⟨⟨m, last⟩, hm, h⟩ := h
        have hlast := length_takeUnit? hm
        dsimp only at h
        split at h
        · simp only [Option.pure_def, Option.some.injEq, Prod.mk.injEq] at h
          simp only [List.length_cons] at hmid
          obtain ⟨_, rfl⟩ := h
          omega
        · cases h
      · cases h
    · simp only [Option.pure_def, Option.some.injEq, Prod.mk.injEq] at h
      obtain ⟨_, rfl⟩ := h
      exact hmid

theorem length_takeEscape? (h : takeEscape? cs = some (c, rest)) : rest.length < cs.length := by
  unfold takeEscape? at h
  split at h
  case h_9 => exact Nat.lt_succ_of_lt (length_takeUnits? h)
  all_goals cases h <;> simp

-- The string whose opening quote has been read. `done` is its text so far, the last character
-- first. Control characters only come escaped.
def takeString? (done : List Char) : List Char → Option (String × List Char)
  | [] => none
  | c :: cs =>
    if c = '"' then some (String.ofList done.reverse, cs)
    else if c = '\\' then
      match _h : takeEscape? cs with
      | none => none
      | some (c, rest) => takeString? (c :: done) rest
    else if c.toNat < 0x20 then none
    else takeString? (c :: done) cs
termination_by cs => cs.length
decreasing_by
  · have := length_takeEscape? _h
    simp only [List.length_cons]
    omega
  · simp

def escapeChar (out : String) (c : Char) : String :=
  if c = '"' then out ++ "\\\""
  else if c = '\\' then out ++ "\\\\"
  else if c = '\x08' then out ++ "\\b"
  else if c = '\t' then out ++ "\\t"
  else if c = '\n' then out ++ "\\n"
  else if c = '\x0c' then out ++ "\\f"
  else if c = '\r' then out ++ "\\r"
  else if c.toNat < 0x20 then
    ((out ++ "\\u00").push (Nat.digitChar (c.toNat / 16))).push (Nat.digitChar (c.toNat % 16))
  else out.push c

theorem length_takeString? (h : takeString? done cs = some (s, rest)) :
    rest.length < cs.length := by
  fun_induction takeString? done cs generalizing s rest with
  | case1 => cases h
  | case2 => cases h; simp
  | case3 => cases h
  | case4 _ _ _ _ he _ ih =>
      have hrest := length_takeEscape? he
      have := ih h
      simp only [List.length_cons]
      omega
  | case5 => cases h
  | case6 _ _ _ _ _ _ ih => exact Nat.lt_succ_of_lt (ih h)

-- A quote, a backslash and the control characters are escaped, and nothing else is.
def quote (out : String) (s : String) : String :=
  (s.toList.foldl escapeChar (out.push '"')).push '"'

end CallSuite.Json
