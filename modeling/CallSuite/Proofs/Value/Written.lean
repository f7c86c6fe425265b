import CallSuite.Proofs.Scanning
import CallSuite.Value.Text

namespace CallSuite.Value

def chars (v : Value) : List Char := v.text.toList

def entryChars (e : Value × Value) : List Char := e.1.chars ++ ':' :: ' ' :: e.2.chars

def escaped : Char → List Char
  | '\\' => ['\\', '\\']
  | '\'' => ['\\', '\'']
  | '\n' => ['\\', 'n']
  | '\t' => ['\\', 't']
  | c => [c]

def quoted (cs : List Char) : List Char := '\'' :: (cs.flatMap escaped ++ ['\''])

theorem toList_writeChar (out : String) (c : Char) :
    (writeChar out c).toList = out.toList ++ escaped c := by
  unfold writeChar escaped
  split <;> simp

theorem toList_writeString (out s : String) :
    (writeString out s).toList = out.toList ++ quoted s.toList := by
  simp [writeString, quoted, toList_foldl toList_writeChar]

-- A tuple of one member has a comma in front of the parenthesis.
def tupleComma (items : List Value) : List Char := if items.length = 1 then [','] else []

theorem toList_closeTuple (out : String) (items : List Value) :
    (if items.length = 1 then out.push ',' else out).toList = out.toList ++ tupleComma items := by
  unfold tupleComma
  split <;> simp

-- What is written goes to the end of what is there, and does not depend on it.
mutual

theorem toList_write (out : String) (v : Value) :
    (v.write out).toList = out.toList ++ v.chars := by
  match v with
  | .bool true => simp [chars, text, write]
  | .bool false => simp [chars, text, write]
  | .int i => simp [chars, text, write]
  | .float x => simp [chars, text, write]
  | .str s => simp [chars, text, write, toList_writeString]
  | .collection .list items =>
      simp only [chars, text, write, String.toList_push]
      rw [toList_writeItems (out.push '['), toList_writeItems ("".push '[')]
      simp
  | .collection .tuple items =>
      simp only [chars, text, write, String.toList_push, toList_closeTuple]
      rw [toList_writeItems (out.push '('), toList_writeItems ("".push '(')]
      simp
  | .collection .set [] => simp [chars, text, write]
  | .collection .set (v :: vs) =>
      simp only [chars, text, write, String.toList_push]
      rw [toList_writeItems (out.push '{'), toList_writeItems ("".push '{')]
      simp
  | .dict entries =>
      simp only [chars, text, write, String.toList_push]
      rw [toList_writeEntries (out.push '{'), toList_writeEntries ("".push '{')]
      simp

theorem toList_writeItems (out lead : String) (vs : List Value) :
    (writeItems out lead vs).toList = out.toList ++ (writeItems "" lead vs).toList := by
  match vs with
  | [] => simp [writeItems]
  | v :: vs =>
      simp only [writeItems]
      rw [toList_writeItems (write (out ++ lead) v), toList_writeItems (write ("" ++ lead) v),
        toList_write (out ++ lead), toList_write ("" ++ lead)]
      simp

theorem toList_writeEntries (out lead : String) (entries : List (Value × Value)) :
    (writeEntries out lead entries).toList =
      out.toList ++ (writeEntries "" lead entries).toList := by
  match entries with
  | [] => simp [writeEntries]
  | (k, v) :: entries =>
      simp only [writeEntries]
      rw [toList_writeEntries (write (write (out ++ lead) k ++ ": ") v),
        toList_writeEntries (write (write ("" ++ lead) k ++ ": ") v),
        toList_write (write (out ++ lead) k ++ ": "), toList_write (write ("" ++ lead) k ++ ": "),
        String.toList_append, String.toList_append, toList_write (out ++ lead),
        toList_write ("" ++ lead)]
      simp

end

section Rows

variable {α : Type}

-- The members behind the first one, each with its comma.
def more (text : α → List Char) (xs : List α) : List Char :=
  xs.flatMap fun x => ',' :: ' ' :: text x

def row (text : α → List Char) : List α → List Char
  | [] => []
  | x :: xs => text x ++ more text xs

theorem row_cons (text : α → List Char) (x : α) (xs : List α) :
    row text (x :: xs) = text x ++ more text xs := rfl

theorem more_cons (text : α → List Char) (x : α) (xs : List α) :
    more text (x :: xs) = ',' :: ' ' :: (text x ++ more text xs) := by
  simp [more]

theorem toList_writeItems_more (vs : List Value) :
    (writeItems "" ", " vs).toList = more chars vs := by
  induction vs with
  | nil => rfl
  | cons v vs ih =>
      rw [writeItems, toList_writeItems, toList_write, ih, more_cons]
      rfl

theorem toList_writeItems_row (vs : List Value) : (writeItems "" "" vs).toList = row chars vs := by
  cases vs with
  | nil => rfl
  | cons v vs =>
      rw [writeItems, toList_writeItems, toList_write, toList_writeItems_more]
      rfl

theorem toList_writeEntries_more (entries : List (Value × Value)) :
    (writeEntries "" ", " entries).toList = more entryChars entries := by
  induction entries with
  | nil => rfl
  | cons e entries ih =>
      rw [writeEntries, toList_writeEntries, toList_write, String.toList_append, toList_write, ih,
        more_cons]
      simp [entryChars]

theorem toList_writeEntries_row (entries : List (Value × Value)) :
    (writeEntries "" "" entries).toList = row entryChars entries := by
  cases entries with
  | nil => rfl
  | cons e entries =>
      rw [writeEntries, toList_writeEntries, toList_write, String.toList_append, toList_write,
        toList_writeEntries_more]
      simp [row_cons, entryChars]

end Rows

section Chars

variable (v : Value) (vs items : List Value) (entries : List (Value × Value))

theorem chars_str (s : String) : (str s).chars = quoted s.toList := by
  simp [chars, text, write, toList_writeString]

theorem chars_list : (collection .list items).chars = '[' :: (row chars items ++ [']']) := by
  simp only [chars, text, write, String.toList_push]
  rw [toList_writeItems, toList_writeItems_row]
  simp

theorem chars_tuple : (collection .tuple items).chars =
    '(' :: (row chars items ++ (tupleComma items ++ [')'])) := by
  simp only [chars, text, write, String.toList_push, toList_closeTuple]
  rw [toList_writeItems, toList_writeItems_row]
  simp

theorem chars_set : (collection .set (v :: vs)).chars = '{' :: (row chars (v :: vs) ++ ['}']) := by
  simp only [chars, text, write, String.toList_push]
  rw [toList_writeItems, toList_writeItems_row]
  simp

theorem chars_dict : (dict entries).chars = '{' :: (row entryChars entries ++ ['}']) := by
  simp only [chars, text, write, String.toList_push]
  rw [toList_writeEntries, toList_writeEntries_row]
  simp

end Chars

end CallSuite.Value
