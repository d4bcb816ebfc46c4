import CheckHandle.Check.Binding
import CheckHandle.Syntax.Flow
import CheckHandle.Syntax.Rename
import CheckHandle.Syntax.Renumber
import CheckHandle.Ty.Info

/-!
# Handling an error

What runs when a checked error is not `nil`: copies of the handlers that apply,
the innermost first, and then the default, which returns the error if the
function can, and panics otherwise. Nothing is kept after the first statement
that terminates.
-/

namespace CheckHandle

/-- The ways to write a zero value. -/
inductive Zero where
  | falsehood
  | emptyString
  | number
  /-- An empty literal of the declared type. -/
  | composite
  | nil
deriving DecidableEq, Inhabited

def Basic.zero (b : Basic) : Zero :=
  if b.isBoolean then .falsehood
  else if b.isString then .emptyString
  else if b == .untypedNil then .nil
  else .number

def TypeInfo.zeroOf (info : TypeInfo) (t : Ty) : Zero :=
  match info.underlying t with
  | some (.basic b) => b.zero
  | some (.struct _) => .composite
  | some (.array ..) => .composite
  | _ => .nil

/-- The zero value of a type that could not be resolved. -/
def TypeExpr.zero : TypeExpr → Zero
  | .name _ none base =>
    match Basic.ofName? base with
    | some b => b.zero
    | none => .nil
  | .struct .. => .composite
  | .array _ (some _) _ => .composite
  | _ => .nil

/-- The zero value of a declared result. -/
def zeroValue (info : TypeInfo) (slot : TypeExpr) : Fresh Expr := do
  let zero := match info.typeOf slot.info.id with
    | some t => info.zeroOf t
    | none => slot.zero
  match zero with
  | .falsehood => Expr.fresh "false"
  | .emptyString => return .lit (← freshInfo) .string "\"\""
  | .number => return .lit (← freshInfo) .int "0"
  | .composite =>
    let ty ← slot.renumber
    return .composite (← freshInfo) (some ty) []
  | .nil => Expr.fresh "nil"

/-- Whether a declared result is an error. -/
def isErrorSlot (info : TypeInfo) (slot : TypeExpr) : Bool :=
  match info.typeOf slot.info.id with
  | some t => t.isError
  | none => slot.isNamed "error"

def panicStmt (errVar : String) : Fresh Stmt := do
  let arg ← Expr.fresh errVar
  let call ← Expr.freshCall "panic" [arg]
  return .expr (← freshInfo) call

/-- Returns zero values and the error from a function whose last result is an
error; panics in any other. -/
def defaultHandler (info : TypeInfo) (slots : List TypeExpr) (errVar : String) : Fresh Stmt := do
  match slots.getLast? with
  | none => panicStmt errVar
  | some last =>
    if isErrorSlot info last then
      let zeros ← slots.dropLast.mapM (zeroValue info)
      let err ← Expr.fresh errVar
      return .ret (← freshInfo) (zeros ++ [err])
    else panicStmt errVar

/-- A copy of a handler's statements for the error in `errVar`. -/
def Handler.instantiate (h : Handler) (errVar : String) : Fresh (List Stmt) := do
  let body ← h.body.renumber
  return (body.rename handleError errVar).stmts

/-- The statements that handle the error in `errVar`. -/
def handlingBody (chain : List Nat) (handlers : List Handler) (errVar : String) (default : Stmt) :
    Fresh (List Stmt) := do
  let copies ← (chain.filterMap fun i => handlers[i]?).mapM fun h => h.instantiate errVar
  return trimStmts (copies.flatten ++ [default])

end CheckHandle
