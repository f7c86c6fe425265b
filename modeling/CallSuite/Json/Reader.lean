import CallSuite.Json.Number
import CallSuite.Json.Quoted

namespace CallSuite.Json

-- A text is read as marks and the scalars between them.
inductive Lexeme where
  | mark (c : Char)
  | scalar (v : Json)

def isSpace (c : Char) : Bool := c = ' ' || c = '\t' || c = '\n' || c = '\r'

-- The mark or scalar at the start of the text, and what follows it.
def takeLexeme? : List Char → Option (Lexeme × List Char)
  | [] => none
  | '"' :: cs => (takeString? [] cs).map fun (s, cs) => (.scalar (.str s), cs)
  | 'n' :: 'u' :: 'l' :: 'l' :: cs => some (.scalar .null, cs)
  | 't' :: 'r' :: 'u' :: 'e' :: cs => some (.scalar (.bool true), cs)
  | 'f' :: 'a' :: 'l' :: 's' :: 'e' :: cs => some (.scalar (.bool false), cs)
  | c :: cs =>
    if c ∈ ['[', ']', '{', '}', ':', ','] then some (.mark c, cs)
    else (JsonNumber.take? (c :: cs)).map fun (n, cs) => (.scalar (.number n), cs)

theorem length_takeLexeme? (h : takeLexeme? cs = some (x, rest)) : rest.length < cs.length := by
  unfold takeLexeme? at h
  split at h
  · cases h
  · obtain ⟨⟨s, cs'⟩, hs, h⟩ := Option.map_eq_some_iff.mp h
    cases h
    exact Nat.lt_succ_of_lt (length_takeString? hs)
  all_goals try (cases h; simp only [List.length_cons]; omega)
  split at h
  · cases h
    simp
  · obtain ⟨⟨n, cs'⟩, hn, h⟩ := Option.map_eq_some_iff.mp h
    cases h
    exact JsonNumber.length_take? hn

-- `done` are the lexemes so far, the last one first.
def lexemesFrom? (done : List Lexeme) (cs : List Char) : Option (List Lexeme) :=
  match _hcs : cs.dropWhile isSpace with
  | [] => some done.reverse
  | c :: cs' => match _h : takeLexeme? (c :: cs') with
    | none => none
    | some (x, rest) => lexemesFrom? (x :: done) rest
termination_by cs.length
decreasing_by
  have hle := (List.dropWhile_sublist (l := cs) isSpace).length_le
  rw [_hcs] at hle
  exact Nat.lt_of_lt_of_le (length_takeLexeme? _h) hle

def lexemes? (text : String) : Option (List Lexeme) := lexemesFrom? [] text.toList

-- What is being read. An object keeps the key whose value is due.
inductive Frame where
  | array (items : List Json)
  | object (members : List (String × Json)) (key : String)

-- What has to come next in the innermost frame. Items and members are kept last one first.
inductive Reader where
  | value (frames : List Frame)
  | firstItem (frames : List Frame)
  | key (first : Bool) (members : List (String × Json)) (frames : List Frame)
  | colon (members : List (String × Json)) (key : String) (frames : List Frame)
  | after (v : Json) (frames : List Frame)

namespace Reader

-- Arrays and objects inside one another, at most this many.
def maxDepth : Nat := 127

def startValue (frames : List Frame) : Lexeme → Option Reader
  | .scalar v => some (.after v frames)
  | .mark c =>
    if frames.length < maxDepth then
      if c = '[' then some (.firstItem frames)
      else if c = '{' then some (.key true [] frames)
      else none
    else none

def push : Reader → Lexeme → Option Reader
  | .value frames, x => startValue frames x
  | .firstItem frames, .mark ']' => some (.after (.array []) frames)
  | .firstItem frames, x => startValue (.array [] :: frames) x
  | .key _ members frames, .scalar (.str k) => some (.colon members k frames)
  | .key true _ frames, .mark '}' => some (.after (.object []) frames)
  | .colon members k frames, .mark ':' => some (.value (.object members k :: frames))
  | .after v (.array items :: frames), .mark ',' => some (.value (.array (v :: items) :: frames))
  | .after v (.array items :: frames), .mark ']' =>
    some (.after (.array (v :: items).reverse) frames)
  | .after v (.object members k :: frames), .mark ',' =>
    some (.key false ((k, v) :: members) frames)
  | .after v (.object members k :: frames), .mark '}' =>
    some (.after (objectOf ((k, v) :: members).reverse) frames)
  | _, _ => none

def finish : Reader → Option Json
  | .after v [] => some v
  | _ => none

end Reader

-- The value that a text denotes, if it is a JSON text.
def read? (text : String) : Option Json := do
  let reader ← (← lexemes? text).foldlM Reader.push (.value [])
  reader.finish

end CallSuite.Json
