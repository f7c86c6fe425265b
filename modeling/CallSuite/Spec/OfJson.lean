import CallSuite.Json.Reader
import CallSuite.Spec.Basic
import CallSuite.Text.Quoted

namespace CallSuite

-- What the value of a key has to be.
inductive Wanted where
  | string
  | sequence
  | number
deriving DecidableEq

def Wanted.text : Wanted → String
  | .string => "a string"
  | .sequence => "a sequence"
  | .number => "a JSON number"

-- How a message names a value.
def Json.summary : Json → String
  | .null => "null"
  | .bool b => s!"boolean `{b}`"
  | .number (.integer i) => s!"integer `{i}`"
  | .number (.float x) => s!"floating point `{x.json}`"
  | .str s => "string " ++ Text.quoted s
  | .array _ => "sequence"
  | .object _ => "map"

inductive SpecError where
  | notJson
  | notAnObject
  | keys (missing unexpected : List String)
  | field (found : Json) (wanted : Wanted)

def SpecError.message : SpecError → String
  | .notJson => "JSON parse error"
  | .notAnObject => "Expected a single JSON object at top level"
  | .keys missing unexpected =>
    let missing := ", ".intercalate missing
    let unexpected := ", ".intercalate unexpected
    s!"Spec keys mismatch: missing [{missing}], unexpected [{unexpected}]"
  | .field found wanted =>
    s!"Invalid field type: invalid type: {found.summary}, expected {wanted.text}"

namespace Spec

def asString : Json → Except SpecError String
  | .str s => .ok s
  | found => .error (.field found .string)

def asStrings : Json → Except SpecError (List String)
  | .array items => items.mapM asString
  | found => .error (.field found .sequence)

def asNumber : Json → Except SpecError JsonNumber
  | .number n => .ok n
  | found => .error (.field found .number)

-- The value of a key. Whoever asks has made sure that the key is there.
def valueAt (members : List (String × Json)) (key : String) : Json :=
  (members.lookup key).getD .null

-- The keys are checked before any value, and the values in the order of their keys.
def ofMembers (members : List (String × Json)) : Except SpecError Spec := do
  let present := members.map (·.1)
  let missing := keys.filter (· ∉ present)
  let unexpected := present.filter (· ∉ keys)
  if missing = [] ∧ unexpected = [] then
    let exhaustive ← asStrings (valueAt members "exhaustive domain")
    let fname ← asString (valueAt members "fname")
    let numRandom ← asNumber (valueAt members "num random")
    let random ← asStrings (valueAt members "random domain")
    let types ← asStrings (valueAt members "types")
    return ⟨fname, types, exhaustive, random, numRandom⟩
  else .error (.keys missing unexpected)

def ofJson : Json → Except SpecError Spec
  | .object members => ofMembers members
  | _ => .error .notAnObject

def ofText (text : String) : Except SpecError Spec :=
  match Json.read? text with
  | some v => ofJson v
  | none => .error .notJson

end Spec

end CallSuite
