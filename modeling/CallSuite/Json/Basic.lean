import CallSuite.Binary64.Layout
import CallSuite.Ordered

namespace CallSuite

-- A number of a JSON text is kept exactly if it is a whole number of 64 bits, with or without sign.
inductive JsonNumber where
  | integer (i : Int)
  | float (x : Binary64)
deriving DecidableEq

def JsonNumber.text : JsonNumber → String
  | .integer i => toString i
  | .float x => x.json

inductive Json where
  | null
  | bool (b : Bool)
  | number (n : JsonNumber)
  | str (s : String)
  | array (items : List Json)
  | object (members : List (String × Json))

namespace Json

-- Of members with one key the last one counts. Keys ascend.
def objectOf (members : List (String × Json)) : Json :=
  .object (sortDistinct (fun a b => compare a.1 b.1) members)

end Json

end CallSuite
