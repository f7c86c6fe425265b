import CallSuite.Json.Writer

namespace CallSuite

-- What is to be called: a function with its parameters, and how many random cases to draw. The
-- parameter at place `i` has the descriptors at place `i` of the three lists.
structure Spec where
  fname : String
  types : List String
  exhaustive : List String
  random : List String
  numRandom : JsonNumber
deriving DecidableEq

namespace Spec

def keys : List String := ["fname", "types", "exhaustive domain", "random domain", "num random"]

def arity (s : Spec) : Nat := s.types.length

def toJson (s : Spec) : Json :=
  .object [("fname", .str s.fname), ("types", .array (s.types.map .str)),
    ("exhaustive domain", .array (s.exhaustive.map .str)),
    ("random domain", .array (s.random.map .str)), ("num random", .number s.numRandom)]

end Spec

-- What can be wrong with a spec whatever its descriptors say.
inductive Violation where
  | invalidNumRandom (found : JsonNumber)
  | lengthMismatch (field : String) (types found : Nat)
deriving DecidableEq

def Violation.message : Violation → String
  | .invalidNumRandom found =>
    s!"'num random' must be a non-negative integer, found {found.text}"
  | .lengthMismatch field types found =>
    s!"Array sizes mismatch: 'types' has {types} entries but '{field}' has {found}"

def JsonNumber.toNat? : JsonNumber → Option Nat
  | .integer i => if 0 ≤ i then some i.toNat else none
  | .float _ => none

namespace Spec

def numRandomViolations (s : Spec) : List Violation :=
  if s.numRandom.toNat?.isSome then [] else [.invalidNumRandom s.numRandom]

def lengthViolations (s : Spec) (field : String) (texts : List String) : List Violation :=
  if texts.length = s.types.length then []
  else [.lengthMismatch field s.types.length texts.length]

def violations (s : Spec) : List Violation :=
  s.numRandomViolations ++ s.lengthViolations "exhaustive domain" s.exhaustive ++
    s.lengthViolations "random domain" s.random

end Spec

end CallSuite
