import CallSuite.Json.Reader
import CallSuite.Json.Writer
import CallSuite.Proofs.Json.Quoted

namespace CallSuite.Json

-- The marks and scalars of a value. `lead` stands in front of the next item or member.
mutual

def lexemes : Json → List Lexeme
  | .array items => .mark '[' :: (itemLexemes [] items ++ [.mark ']'])
  | .object members => .mark '{' :: (memberLexemes [] members ++ [.mark '}'])
  | v => [.scalar v]

def itemLexemes (lead : List Lexeme) : List Json → List Lexeme
  | [] => []
  | v :: vs => lead ++ (lexemes v ++ itemLexemes [.mark ','] vs)

def memberLexemes (lead : List Lexeme) : List (String × Json) → List Lexeme
  | [] => []
  | (k, v) :: members =>
    lead ++ .scalar (.str k) :: .mark ':' :: (lexemes v ++ memberLexemes [.mark ','] members)

end

def Lexeme.chars : Lexeme → List Char
  | .mark c => [c]
  | .scalar v => v.text.toList

@[simp] theorem chars_mark (c : Char) : (Lexeme.mark c).chars = [c] := rfl

theorem chars_str (s : String) :
    (Lexeme.scalar (.str s)).chars = '"' :: (s.toList.flatMap escaped ++ ['"']) := by
  simp [Lexeme.chars, text, write, toList_quote]

-- A value is written as its lexemes, with nothing between them.
mutual

theorem toList_write (out : String) (v : Json) :
    (v.write out).toList = out.toList ++ v.lexemes.flatMap Lexeme.chars := by
  match v with
  | .null => simp [lexemes, Lexeme.chars, text, write]
  | .bool true => simp [lexemes, Lexeme.chars, text, write]
  | .bool false => simp [lexemes, Lexeme.chars, text, write]
  | .number n => simp [lexemes, Lexeme.chars, text, write]
  | .str s => simp [lexemes, write, toList_quote, chars_str]
  | .array items =>
      rw [write, String.toList_push, toList_writeItems _ "" [] rfl]
      simp [lexemes]
  | .object members =>
      rw [write, String.toList_push, toList_writeMembers _ "" [] rfl]
      simp [lexemes]

theorem toList_writeItems (out lead : String) (marks : List Lexeme)
    (hlead : lead.toList = marks.flatMap Lexeme.chars) (vs : List Json) :
    (writeItems out lead vs).toList =
      out.toList ++ (itemLexemes marks vs).flatMap Lexeme.chars := by
  match vs with
  | [] => simp [writeItems, itemLexemes]
  | v :: vs =>
      rw [writeItems, toList_writeItems _ "," [.mark ','] rfl, toList_write, String.toList_append,
        hlead]
      simp [itemLexemes]

theorem toList_writeMembers (out lead : String) (marks : List Lexeme)
    (hlead : lead.toList = marks.flatMap Lexeme.chars) (members : List (String × Json)) :
    (writeMembers out lead members).toList =
      out.toList ++ (memberLexemes marks members).flatMap Lexeme.chars := by
  match members with
  | [] => simp [writeMembers, memberLexemes]
  | (k, v) :: members =>
      rw [writeMembers, toList_writeMembers _ "," [.mark ','] rfl, toList_write,
        String.toList_push, toList_quote, String.toList_append, hlead]
      simp [memberLexemes, chars_str]

end

-- A text of the lexemes: JSON white space may stand in front of each of them and at the end.
inductive Layout : List Lexeme → List Char → Prop
  | nil {blanks} (hblanks : ∀ c ∈ blanks, isSpace c) : Layout [] blanks
  | cons {blanks cs} {x : Lexeme} {xs} (hblanks : ∀ c ∈ blanks, isSpace c) (rest : Layout xs cs) :
    Layout (x :: xs) (blanks ++ (x.chars ++ cs))

theorem layout_flatMap_chars (xs : List Lexeme) : Layout xs (xs.flatMap Lexeme.chars) := by
  induction xs with
  | nil => exact .nil (by simp)
  | cons x xs ih => exact @Layout.cons [] _ x xs (by simp) ih

theorem layout_text (v : Json) : Layout v.lexemes v.text.toList := by
  have htext : v.text.toList = v.lexemes.flatMap Lexeme.chars := toList_write "" v
  rw [htext]
  exact layout_flatMap_chars v.lexemes

end CallSuite.Json
