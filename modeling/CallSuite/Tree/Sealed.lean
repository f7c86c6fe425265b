import CallSuite.Tree.Basic

namespace CallSuite

-- A node without the domain of a role.
structure SealError where
  kind : Kind
  role : Role
deriving DecidableEq

def SealError.message (e : SealError) : String := s!"{e.kind.name} node has no {e.role.name} domain"

def Slots.seal (kind : Kind) : Slots α → Except SealError (Domains α)
  | ⟨some e, some r⟩ => .ok ⟨e, r⟩
  | ⟨none, _⟩ => .error ⟨kind, .exhaustive⟩
  | ⟨_, none⟩ => .error ⟨kind, .random⟩

-- A node comes before its children, and a key before its value, so the first node without a domain
-- is the one reported.
def Tree.seal : TypeTree → Except SealError Node
  | .int s => .int <$> s.seal .int
  | .bool s => .bool <$> s.seal .bool
  | .float s => .float <$> s.seal .float
  | .str alphabet s => .str alphabet <$> s.seal .str
  | .collection c s item => do
    let sizes ← s.seal (.collection c)
    return .collection c sizes (← item.seal)
  | .dict s key value => do
    let sizes ← s.seal .dict
    return .dict sizes (← key.seal) (← value.seal)

end CallSuite
