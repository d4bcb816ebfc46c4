import CheckHandle.Failure

/-!
# Reserved names

Names that the lowering and the expansion put into a program. Source code may
not spell them: the lowering refuses every identifier with the reserved start.
-/

namespace CheckHandle

/-- The function that wraps a checked expression. -/
def checkFunc : String := reservedStart ++ "check"

/-- The condition that a handler's conditional tests. -/
def handleFlag : String := reservedStart ++ "handle"

/-- What stands for the error identifier inside a handler. -/
def handleError : String := reservedStart ++ "handleErr"

def isReserved (name : String) : Bool :=
  reservedStart.toList.isPrefixOf name.toList

/-- The temporary with number `n` for values of the type named `typeName`. -/
def temporaryName (typeName : String) (n : Nat) : String :=
  reservedStart ++ typeName ++ toString n

end CheckHandle
