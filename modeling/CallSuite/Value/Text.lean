import CallSuite.Binary64.Layout
import CallSuite.Value.Basic

namespace CallSuite

namespace Value

-- Inside single quotes a backslash, a quote, a line feed and a tab are escaped.
def writeChar (out : String) : Char → String
  | '\\' => out ++ "\\\\"
  | '\'' => out ++ "\\'"
  | '\n' => out ++ "\\n"
  | '\t' => out ++ "\\t"
  | c => out.push c

def writeString (out : String) (s : String) : String :=
  (s.toList.foldl writeChar (out.push '\'')).push '\''

-- Values are written as literals of Python at the end of `out`. `lead` stands before the next
-- member, and from the second one on it is a comma.
mutual

def write (out : String) : Value → String
  | .bool true => out ++ "True"
  | .bool false => out ++ "False"
  | .int i => out ++ toString i
  | .float x => out ++ x.literal
  | .str s => writeString out s
  | .collection .list items => writeItems (out.push '[') "" items |>.push ']'
  | .collection .tuple items =>
    -- A comma tells the tuple of one member from a value in parentheses.
    let out := writeItems (out.push '(') "" items
    (if items.length = 1 then out.push ',' else out).push ')'
  -- Empty braces are the empty dict.
  | .collection .set [] => out ++ "set()"
  | .collection .set items => writeItems (out.push '{') "" items |>.push '}'
  | .dict entries => writeEntries (out.push '{') "" entries |>.push '}'

def writeItems (out lead : String) : List Value → String
  | [] => out
  | v :: vs => writeItems (write (out ++ lead) v) ", " vs

def writeEntries (out lead : String) : List (Value × Value) → String
  | [] => out
  | (k, v) :: entries => writeEntries (write (write (out ++ lead) k ++ ": ") v) ", " entries

end

def text (v : Value) : String := v.write ""

end Value

-- The arguments of one call, one for each parameter.
structure TestCase where
  args : List Value

-- The arguments as they stand between the parentheses of the call.
def TestCase.text (t : TestCase) : String := Value.writeItems "" "" t.args

end CallSuite
