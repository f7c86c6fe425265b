import CallSuite.Text.Token
import CallSuite.Tree.Basic

namespace CallSuite

open CallSuite.Text

inductive TypeFault where
  | expectedDelimiter (expected : Char)
  | expectedType
  | expectedCharset
  | missingOperand
  | trailingTokens (count : Nat)
  | empty
deriving DecidableEq

def TypeFault.message : TypeFault → String
  | .expectedDelimiter c => s!"expected '{c}'"
  | .expectedType => "expected a type"
  | .expectedCharset => "expected a character set"
  | .missingOperand => "missing operand"
  | .trailingTokens count => s!"expected a single type, found {count} top-level entries"
  | .empty => "empty descriptor"

structure TypeError where
  text : String
  token : String
  fault : TypeFault
deriving DecidableEq

def TypeError.message (e : TypeError) : String :=
  s!"Invalid type descriptor '{e.text}': {e.fault.message} at '{e.token}'"

namespace TypeTree

-- What the text to the right of a token has been read to.
inductive Operand where
  | delim (c : Char)
  | literal (s : String)
  | type (t : TypeTree)

def Operand.text : Operand → String
  | .delim c => c.toString
  | .literal s => s
  | .type t => t.kind.name

abbrev Read := Except (String × TypeFault)

def popDelim (word : String) (expected : Char) : List Operand → Read (List Operand)
  | [] => .error (word, .missingOperand)
  | .delim c :: stack =>
    if c = expected then .ok stack else .error (c.toString, .expectedDelimiter expected)
  | other :: _ => .error (other.text, .expectedDelimiter expected)

def popType (word : String) : List Operand → Read (TypeTree × List Operand)
  | [] => .error (word, .missingOperand)
  | .type t :: stack => .ok (t, stack)
  | other :: _ => .error (other.text, .expectedType)

def popCharset (word : String) : List Operand → Read (String × List Operand)
  | [] => .error (word, .missingOperand)
  | .literal s :: stack => .ok (s, stack)
  | other :: _ => .error (other.text, .expectedCharset)

def pushCollection (word : String) (c : Collection) (stack : List Operand) :
    Read (List Operand) := do
  let stack ← popDelim word '(' stack
  let (item, stack) ← popType word stack
  return .type (.collection c .empty item) :: stack

-- A keyword takes its operands from what follows it in the text.
def push : Token → List Operand → Read (List Operand)
  | .delim c, stack => .ok (.delim c :: stack)
  | .word "int", stack => .ok (.type (.int .empty) :: stack)
  | .word "bool", stack => .ok (.type (.bool .empty) :: stack)
  | .word "float", stack => .ok (.type (.float .empty) :: stack)
  | .word "list", stack => pushCollection "list" .list stack
  | .word "tuple", stack => pushCollection "tuple" .tuple stack
  | .word "set", stack => pushCollection "set" .set stack
  | .word "dict", stack => do
    let stack ← popDelim "dict" '(' stack
    let (key, stack) ← popType "dict" stack
    let stack ← popDelim "dict" ':' stack
    let (value, stack) ← popType "dict" stack
    return .type (.dict .empty key value) :: stack
  | .word "str", stack => do
    let stack ← popDelim "str" '(' stack
    let (charset, stack) ← popCharset "str" stack
    return .type (.str (.ofList charset.toList) .empty) :: stack
  | .word w, stack => .ok (.literal w :: stack)

def finish : List Operand → Read TypeTree
  | [] => .error ("", .empty)
  | [.type t] => .ok t
  | [other] => .error (other.text, .expectedType)
  | top :: rest => .error (top.text, .trailingTokens (rest.length + 1))

def ofTokens (tokens : List Token) : Read TypeTree := tokens.foldrM push [] >>= finish

def tokens (text : String) : List Token := Token.split ['(', ':'] text.toList

-- The tree that a type descriptor denotes, with all its domains still to come.
def ofText (text : String) : Except TypeError TypeTree :=
  (ofTokens (tokens text)).mapError fun (token, fault) => ⟨text, token, fault⟩

end TypeTree

end CallSuite
