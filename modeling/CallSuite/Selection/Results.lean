import CallSuite.Ordered
import CallSuite.Value.Text

namespace CallSuite

abbrev IdSet := OrderedSet Nat

-- What was observed when the cases were run. Each case has the set of implementations that it
-- catches, and the implementations of the wrong set are those that have to be caught.
structure Results where
  cases : List TestCase
  catchSets : List IdSet
  wrongSet : IdSet
  length_eq : cases.length = catchSets.length

structure LengthMismatch where
  cases : Nat
  catchSets : Nat
deriving DecidableEq

def LengthMismatch.message (e : LengthMismatch) : String :=
  s!"Expected one catch set per test case: {e.cases} cases, {e.catchSets} catch sets"

namespace Results

def ofWrongSet (cases : List TestCase) (catchSets : List IdSet) (wrongSet : IdSet) :
    Except LengthMismatch Results :=
  if h : cases.length = catchSets.length then .ok ⟨cases, catchSets, wrongSet, h⟩
  else .error ⟨cases.length, catchSets.length⟩

-- Whatever is caught by some case is wrong.
def ofCatchSets (cases : List TestCase) (catchSets : List IdSet) :
    Except LengthMismatch Results :=
  ofWrongSet cases catchSets (.ofList (catchSets.flatMap (·.toList)))

end Results

end CallSuite
