import CheckHandle.Failure
import CheckHandle.Ty.Info
import CheckHandle.Ty.VarName

/-!
# Results of a checked expression

A check splits what its expression yields into values and an error, which comes
last.
-/

namespace CheckHandle

/-- Whether a declared type stands for an interface. -/
def TypeInfo.isInterface (info : TypeInfo) (t : Ty) : Bool :=
  match info.underlying t with
  | some (.interface ..) => true
  | _ => false

/-- Words for the results of a check, the error last. A single result of a
declared interface type counts as the error. -/
def resultNames (info : TypeInfo) (ty : Ty) : Except Cause (List String) :=
  match ty with
  | .tuple items =>
    match items.getLast? with
    | none => .error .noResults
    | some last =>
      if last.isError then .ok (items.map fun t => varName t.text)
      else .error (.lastNotError last.text)
  | .named .. =>
    if ty.isError || info.isInterface ty then .ok ["error"] else .error (.lastNotError ty.text)
  | .basic b => .error (if b.isUntyped then .unsupportedType b.name else .lastNotError ty.text)
  | _ => .error (.lastNotError ty.text)

end CheckHandle
