import CallSuite.Exhaustive.Estimate
import CallSuite.Exhaustive.Values
import CallSuite.Random.Values
import CallSuite.Spec.Compiled

namespace CallSuite

inductive CampaignError where
  | fileNotFound
  | fileNotText
  | compile (e : CompileError)

def CampaignError.message : CampaignError → String
  | .fileNotFound => "Failed to read spec file"
  | .fileNotText => "Failed to read spec file"
  | .compile e => s!"Compilation error: {e.message}"

-- A compiled spec, from which suites are made.
structure Campaign where
  compiled : CompiledSpec

namespace Campaign

def ofText (text : String) : Except CampaignError Campaign :=
  ((CompiledSpec.ofText text).mapError .compile).map .mk

-- The contents of a spec file, if there is one.
def ofFile (contents : Option ByteArray) : Except CampaignError Campaign := do
  let some bytes := contents | .error .fileNotFound
  let some text := String.fromUTF8? bytes | .error .fileNotText
  ofText text

def fname (c : Campaign) : String := c.compiled.fname

def params (c : Campaign) : List Node := c.compiled.params

def numRandom (c : Campaign) : Nat := c.compiled.numRandom

def exhaustiveSuite (c : Campaign) : List TestCase := CallSuite.exhaustiveSuite c.params

def estimate (c : Campaign) : Nat := estimateSuite c.params

def randomCases (c : Campaign) (seed : UInt64) : CaseStream Generator := .ofSeed c.params seed

def randomSuite (c : Campaign) (seed : UInt64) : List TestCase :=
  CallSuite.randomSuite c.params c.numRandom seed

end Campaign

end CallSuite
