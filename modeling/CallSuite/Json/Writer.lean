import CallSuite.Json.Quoted
import CallSuite.Json.Basic

namespace CallSuite.Json

-- Values are written at the end of `out`, without spaces, and the members of an object in the order
-- in which they are given. `lead` stands before the next item or member.
mutual

def write (out : String) : Json → String
  | .null => out ++ "null"
  | .bool true => out ++ "true"
  | .bool false => out ++ "false"
  | .number n => out ++ n.text
  | .str s => quote out s
  | .array items => (writeItems (out.push '[') "" items).push ']'
  | .object members => (writeMembers (out.push '{') "" members).push '}'

def writeItems (out lead : String) : List Json → String
  | [] => out
  | v :: vs => writeItems (write (out ++ lead) v) "," vs

def writeMembers (out lead : String) : List (String × Json) → String
  | [] => out
  | (k, v) :: members => writeMembers (write ((quote (out ++ lead) k).push ':') v) "," members

end

def text (v : Json) : String := v.write ""

end CallSuite.Json
