import CallSuite.Clause.Decorated
import CallSuite.Spec.Basic
import CallSuite.Spec.OfJson
import CallSuite.Tree.OfText
import CallSuite.Tree.Sealed

namespace CallSuite

inductive CompileError where
  | spec (e : SpecError)
  | shape (violations : List Violation)
  | type (e : TypeError)
  | domain (e : DomainError)
  | seal (e : SealError)

def CompileError.message : CompileError → String
  | .spec e => s!"Malformed spec: {e.message}"
  | .shape violations => "Schema violations: " ++ "; ".intercalate (violations.map (·.message))
  | .type e => s!"Type grammar error: {e.message}"
  | .domain e => s!"Domain grammar error: {e.message}"
  | .seal e => s!"Incomplete decoration: {e.message}"

-- The tree after all its nodes got the domain of a role. A tree that is only decorated in part is
-- not returned.
def TypeTree.decorated (tree : TypeTree) (role : Role) (text : String) :
    Except CompileError TypeTree :=
  match tree.decorate role text with
  | (tree, .ok _) => .ok tree
  | (_, .error e) => .error (.domain e)

-- One parameter on its own.
def compileParam (type exhaustive random : String) : Except CompileError Node := do
  let tree ← (TypeTree.ofText type).mapError .type
  let tree ← TypeTree.decorated tree .exhaustive exhaustive
  let tree ← TypeTree.decorated tree .random random
  tree.seal.mapError .seal

structure CompiledSpec where
  fname : String
  params : List Node
  numRandom : Nat

namespace Spec

def decorateAll (role : Role) (trees : List TypeTree) (texts : List String) :
    Except CompileError (List TypeTree) :=
  (trees.zip texts).mapM fun (tree, text) => TypeTree.decorated tree role text

-- All types come first, then all exhaustive domains, then all random ones.
def compileTrees (s : Spec) : Except CompileError (List Node) := do
  let trees ← s.types.mapM fun text => (TypeTree.ofText text).mapError .type
  let trees ← decorateAll .exhaustive trees s.exhaustive
  let trees ← decorateAll .random trees s.random
  trees.mapM fun tree => tree.seal.mapError .seal

def compile (s : Spec) : Except CompileError CompiledSpec :=
  match s.violations with
  | [] => do
    let params ← s.compileTrees
    return ⟨s.fname, params, s.numRandom.toNat?.getD 0⟩
  | violations => .error (.shape violations)

end Spec

def CompiledSpec.ofText (text : String) : Except CompileError CompiledSpec := do
  let spec ← (Spec.ofText text).mapError .spec
  spec.compile

end CallSuite
