import CallSuite.Distinct
import CallSuite.Exhaustive.Rows
import CallSuite.Tree.Basic
import CallSuite.Value.Text

namespace CallSuite

def Collection.rows (c : Collection) (items : List Value) (n : Nat) : List (List Value) :=
  match c with
  | .set => combinations items n
  | _ => power items n

def Value.dicts (keys values : List Value) (n : Nat) : List Value :=
  let rows := power values n
  (combinations keys n).flatMap fun chosen => rows.map fun row => .dictOf (chosen.zip row)

-- The values that the exhaustive domains of a node allow. No value comes twice: children do not
-- repeat, and neither do lengths once the domain is `distinct`.
def Tree.exhaustiveValues : Node → List Value
  | .int d => (distinct d.exhaustive.toList).map .int
  | .bool d => (distinct d.exhaustive.toList).map .bool
  | .float d => (distinct d.exhaustive.toList).map .float
  | .str alphabet d => (distinct d.exhaustive.toList).flatMap fun n =>
    (power alphabet.toList n).map fun cs => .str (String.ofList cs)
  | .collection c d item =>
    let items := item.exhaustiveValues
    (distinct d.exhaustive.toList).flatMap fun n => (c.rows items n).map (.ofItems c)
  | .dict d key value =>
    let keys := key.exhaustiveValues
    let values := value.exhaustiveValues
    (distinct d.exhaustive.toList).flatMap (Value.dicts keys values)

-- One case for each choice of one value for each parameter.
def exhaustiveSuite (params : List Node) : List TestCase :=
  (product (params.map Tree.exhaustiveValues)).map .mk

end CallSuite
