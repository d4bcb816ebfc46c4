/-!
# Spans and node identities
-/

namespace CheckHandle

/-- A stretch of text between two byte offsets. -/
structure Span where
  start : Nat := 0
  stop : Nat := 0
deriving DecidableEq, Inhabited

/-- The span of a node that was not read from any text. -/
def Span.synthetic : Span := {}

/-- Identity of one syntax node within its package. -/
abbrev NodeId := Nat

/-- What every syntax node carries: its identity and where it was read. -/
structure Info where
  id : NodeId
  span : Span
deriving DecidableEq, Inhabited

/-- A computation that draws fresh node identities from a counter. -/
abbrev Fresh := StateM NodeId

/-- The next unused identity. -/
def freshId : Fresh NodeId := fun next => (next, next + 1)

/-- A fresh identity for a node that is made rather than read. -/
def freshInfo : Fresh Info := do
  return ⟨← freshId, Span.synthetic⟩

end CheckHandle
