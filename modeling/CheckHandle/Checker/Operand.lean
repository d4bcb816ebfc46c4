import CheckHandle.Checker.Scope
import CheckHandle.Marker.Names

/-!
# Operands

What an expression may turn out to be, and the rules for selectors, elements,
assignments and predeclared functions that look at no further expression.
-/

namespace CheckHandle

inductive Operand where
  | value (ty : Ty)
  | type (ty : Ty)
  | package (path : String)
  | builtin (name : String)

/-- The type of an operand that is a value. -/
def Operand.value? : Operand → Option Ty
  | .value ty => some ty
  | _ => none

/-- The operand that an object is used as. -/
def Object.operand? : Object → Option Operand
  | .var ty => ty.map .value
  | .const ty => some (.value ty)
  | .func sig => some (.value (.func sig))
  | .typeName ty => some (.type ty)
  | .package path => some (.package path)
  | .builtin name => some (.builtin name)
  | .nil => some (.value (.basic .untypedNil))

def LitKind.basic : LitKind → Basic
  | .int => .untypedInt
  | .float => .untypedFloat
  | .imag => .untypedComplex
  | .rune => .untypedRune
  | .string => .untypedString

namespace TypeInfo

/-- The underlying type, through a pointer to an array. -/
def throughPointer (info : TypeInfo) (t : Ty) : Option Ty := do
  match ← info.underlying t with
  | .pointer inner =>
    match info.underlying inner with
    | some (.array n elem) => return .array n elem
    | _ => return .pointer inner
  | under => return under

/-- The type of an element that is selected by an index. -/
def elementOf (info : TypeInfo) (base : Ty) : Option Ty := do
  match ← info.throughPointer base with
  | .slice elem => return elem
  | .array _ elem => return elem
  | .map _ value => return value
  | .basic b => if b.isString then return .basic .uint8 else none
  | _ => none

/-- The type of a part that is cut out by bounds. -/
def sliceOf (info : TypeInfo) (base : Ty) : Option Ty := do
  match ← info.throughPointer base with
  | .array _ elem => return .slice elem
  | .slice _ => return base
  | .basic _ => return base
  | _ => none

/-- The types of the two variables of a range clause. -/
def rangeTypes (info : TypeInfo) (t : Ty) : Option Ty × Option Ty :=
  match info.underlying t with
  | some (.slice elem) => (some (.basic .int), some elem)
  | some (.array _ elem) => (some (.basic .int), some elem)
  | some (.pointer inner) =>
    match info.underlying inner with
    | some (.array _ elem) => (some (.basic .int), some elem)
    | _ => (none, none)
  | some (.map key value) => (some key, some value)
  | some (.basic b) => (some (.basic .int), if b.isString then some (.basic .int32) else none)
  | _ => (none, none)

/-- The field or method `name` of a value, through embedded fields and
interfaces down to `depth` levels. -/
def memberWithin (info : TypeInfo) (name : String) : (depth : Nat) → Ty → Option Ty
  | 0, _ => none
  | depth + 1, t =>
    let base := match t with
      | .pointer inner => inner
      | t => t
    let declared := do
      (← info.named.get? (← base.key?)).methods.get? name
    match declared with
    | some sig => some (.func sig)
    | none =>
      match info.underlying base with
      | some (.struct fields) =>
        match fields.find? fun f => f.name == name with
        | some f => some f.ty
        | none =>
          (fields.filter StructField.embedded).findSome? fun f =>
            info.memberWithin name depth f.ty
      | some (.interface methods embeds) =>
        match methods.find? fun m => m.name == name with
        | some m => some (.func m.sig)
        | none => embeds.findSome? fun e => info.memberWithin name depth e
      | _ => none

/-- The field or method `name` of a value. -/
def member (info : TypeInfo) (t : Ty) (name : String) : Option Ty :=
  info.memberWithin name 5 t

/-- The expression may also tell whether it succeeded. -/
def isCommaOk (info : TypeInfo) : Expr → Bool
  | .typeAssert .. => true
  | .index _ x _ =>
    match (info.typeOf x.info.id).bind info.underlying with
    | some (.map ..) => true
    | _ => false
  | .paren _ x => info.isCommaOk x
  | _ => false

end TypeInfo

/-- An identifier that is used. -/
def useIdent (node : Info) (name : String) : CheckM (Option Operand) := do
  if name == "_" then return none
  match (← get).lookup name with
  | none =>
    modify (·.diagnose node.span ("undefined: " ++ name))
    return none
  | some object =>
    modify (·.recordUse node.id object)
    return object.operand?

/-- The operand `x.sel`, where `x` is the operand given. -/
def selectFrom (x : Option Operand) (sel : Ident) : CheckM (Option Operand) := do
  let c ← get
  match x with
  | some (.package path) =>
    match c.stubs.member? path sel.name with
    | some (.func sig) => return some (.value (.func sig))
    | some (.var ty) => return ty.map .value
    | some (.const ty) => return some (.value ty)
    | some (.typeName ty) => return some (.type ty)
    | _ =>
      modify (·.diagnose sel.info.span ("undefined: " ++ path ++ "." ++ sel.name))
      return none
  | some (.value t) =>
    match c.info.member t sel.name with
    | some m => return some (.value m)
    | none =>
      modify (·.diagnose sel.info.span (t.text ++ " has no field or method " ++ sel.name))
      return none
  | some (.type t) =>
    -- The receiver of a method taken from a type is its first parameter.
    match c.info.member t sel.name with
    | some (.func sig) => return some (.value (.func { sig with params := t :: sig.params }))
    | _ => return none
  | _ => return none

/-- The operand of a prefixed operator. -/
def unaryOperand (info : TypeInfo) (op : UnaryOp) : Operand → Option Operand
  | .type t =>
    match op with
    | .deref => some (.type (.pointer t))
    | _ => none
  | .value t =>
    match op with
    | .deref =>
      match info.underlying t with
      | some (.pointer elem) => some (.value elem)
      | _ => none
    | .addr => some (.value (.pointer t))
    | _ => some (.value t)
  | _ => none

/-- The type of a binary operation. -/
def binaryType (op : BinaryOp) (left right : Option Ty) : Option Ty :=
  if op.isComparison then some (.basic .untypedBool)
  else
    match op with
    | .shl | .shr => left
    | _ => do return (← left).unify (← right)

/-- The type of a call of a predeclared function, by its first argument. -/
def builtinResult (name : String) (first : Option Ty) : Option Ty :=
  if name == "len" || name == "cap" || name == "copy" then some (.basic .int)
  else if name == "append" || name == "min" || name == "max" then first
  else if name == "real" || name == "imag" then some (.basic .float64)
  else if name == "complex" then some (.basic .complex128)
  else if name == "recover" then some (.interface [] [])
  else some (.tuple [])

/-- The type that a literal gives its element number `i`. -/
def elementHint (under : Option Ty) (i : Nat) : Option Ty :=
  match under with
  | some (.struct fields) => fields[i]?.map StructField.ty
  | some (.slice elem) => some elem
  | some (.array _ elem) => some elem
  | some (.map _ value) => some value
  | _ => none

/-- The type that a literal gives the value of a keyed element. -/
def keyedHint (under : Option Ty) (i : Nat) (key : Expr) : Option Ty :=
  match under, key.ident? with
  | some (.struct fields), some name => (fields.find? fun f => f.name == name).map StructField.ty
  | _, _ => elementHint under i

/-- Whether the key of an element is a value, and the type that the literal
gives it. -/
def keyHint (under : Option Ty) (key : Expr) : Option (Option Ty) :=
  match under with
  | some (.struct _) => none
  | some (.slice _) | some (.array ..) => some none
  | some (.map k _) => some (some k)
  | _ => if key.ident?.isNone then some none else none

def mismatchMessage (count found : Nat) : String :=
  "assignment mismatch: " ++ toString count ++ " variables but " ++ toString found ++ " values"

/-- The types of the `count` variables that one value is assigned to. -/
def spreadTypes (value : Expr) (ty : Option Ty) (count : Nat) (span : Span) :
    CheckM (List (Option Ty)) := do
  if count == 2 && (← get).info.isCommaOk value then
    return [ty.map Ty.defaulted, some (.basic .bool)]
  match ty with
  | none => return List.replicate count none
  | some (.tuple items) =>
    if items.length == count then return items.map some
    modify (·.diagnose span (mismatchMessage count items.length))
    return List.replicate count none
  | some _ =>
    modify (·.diagnose span (mismatchMessage count 1))
    return List.replicate count none

/-- The type of a variable that a value of its own is assigned to. -/
def singleType (span : Span) : Option Ty → CheckM (Option Ty)
  | some (.tuple _) => do
    modify (·.diagnose span "multiple-value in single-value context")
    return none
  | ty => return ty.map Ty.defaulted

/-- The types of `count` variables, from values and their types. -/
def assignedTypes (values : List Expr) (types : List (Option Ty)) (count : Nat) (span : Span) :
    CheckM (List (Option Ty)) := do
  match values, types with
  | [value], [ty] =>
    if 1 < count then spreadTypes value ty count span
    else if count == 1 then return [← singleType span ty]
    else
      modify (·.diagnose span (mismatchMessage count 1))
      return []
  | _, _ =>
    if types.length == count then types.mapM (singleType span)
    else
      modify (·.diagnose span (mismatchMessage count types.length))
      return List.replicate count none

/-- The target of a definition: a new variable, unless the innermost scope has
one of the name. -/
def defineName (node : Info) (name : String) (ty : Option Ty) : CheckM Unit := do
  if name == "_" then return
  match ty with
  | some t => modify (·.recordType node.id t)
  | none => pure ()
  let c ← get
  match c.locals.head?.bind fun scope => scope.lookup name with
  | some object => modify (·.recordUse node.id object)
  | none =>
    modify (·.recordUse node.id (.var ty))
    modify (·.declare true name (.var ty))

/-- Declares variables or constants; a declared type goes before that of the
value. -/
def declareValues (constant isLocal : Bool) (declared : Option Ty) :
    List Ident → List (Option Ty) → CheckM Unit
  | name :: names, ty :: types => do
    let object := match constant, declared.or ty with
      | true, some ty => Object.const ty
      | _, ty => Object.var (ty.map Ty.defaulted)
    modify (·.declare isLocal name.name object)
    declareValues constant isLocal declared names types
  | _, _ => return

end CheckHandle
