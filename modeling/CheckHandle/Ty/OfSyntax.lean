import CheckHandle.Syntax.Basic
import CheckHandle.Ty.Basic

/-!
# From written types to types

A written type stands for a type once its names are resolved. If one of them
cannot be, the whole has no meaning.
-/

namespace CheckHandle

/-- What a type name, perhaps qualified by a package, stands for. -/
abbrev Resolver := Option String → String → Option Ty

/-- The length that an array type spells out as a plain decimal literal. -/
def arrayLength? : Option Expr → Option Nat
  | some (.lit _ .int text) =>
    let digits := text.toList.filter (· != '_')
    if !digits.isEmpty && digits.all Char.isDigit then
      let n := digits.foldl (fun n c => 10 * n + (c.toNat - '0'.toNat)) 0
      if n < UInt64.size then some n else none
    else none
  | _ => none

/-- The name of an embedded field: that of its type, without pointer and
package. -/
def embeddedName : TypeExpr → String
  | .pointer _ elem => embeddedName elem
  | .name _ _ name => name
  | _ => ""

/-- The fields that one line of a struct declares. -/
def structFields (names : List Ident) (written : TypeExpr) (ty : Ty) : List StructField :=
  match names with
  | [] => [⟨embeddedName written, ty, true⟩]
  | names => names.map fun n => ⟨n.name, ty, false⟩

mutual

def TypeExpr.resolve (names : Resolver) : TypeExpr → Option Ty
  | .name _ package name => names package name
  | .pointer _ elem => do return .pointer (← elem.resolve names)
  | .slice _ elem => do return .slice (← elem.resolve names)
  | .array _ len elem => do return .array (arrayLength? len) (← elem.resolve names)
  | .map _ key value => do return .map (← key.resolve names) (← value.resolve names)
  | .func _ sig => do return .func (← sig.resolve names)
  | .struct _ fields => do return .struct (← resolveStruct names fields)
  | .interface _ elems => do
    let (methods, embeds) ← resolveInterface names elems
    return .interface methods embeds

def Signature.resolve (names : Resolver) : Signature → Option FuncTy
  | ⟨params, results⟩ => do
    let (types, variadic) ← resolveParams names params
    return ⟨types, ← resolveResults names results, variadic⟩

/-- The types of parameters, and whether the function is variadic. -/
def resolveParams (names : Resolver) : List Field → Option (List Ty × Bool)
  | [] => some ([], false)
  | ⟨_, ids, ty, variadic, _⟩ :: fields => do
    let ty ← ty.resolve names
    let ty := if variadic then .slice ty else ty
    let (types, more) ← resolveParams names fields
    return (List.replicate (max ids.length 1) ty ++ types, variadic || more)

def resolveResults (names : Resolver) : List Field → Option (List Ty)
  | [] => some []
  | ⟨_, ids, ty, _, _⟩ :: fields => do
    let ty ← ty.resolve names
    return List.replicate (max ids.length 1) ty ++ (← resolveResults names fields)

def resolveStruct (names : Resolver) : List Field → Option (List StructField)
  | [] => some []
  | ⟨_, ids, written, _, _⟩ :: fields => do
    let ty ← written.resolve names
    return structFields ids written ty ++ (← resolveStruct names fields)

/-- Methods and embedded interfaces. -/
def resolveInterface (names : Resolver) : List Field → Option (List Method × List Ty)
  | [] => some ([], [])
  | ⟨_, id :: _, .func _ sig, _, _⟩ :: elems => do
    let sig ← sig.resolve names
    let (methods, embeds) ← resolveInterface names elems
    return (⟨id.name, sig⟩ :: methods, embeds)
  | ⟨_, _, ty, _, _⟩ :: elems => do
    let ty ← ty.resolve names
    let (methods, embeds) ← resolveInterface names elems
    return (methods, ty :: embeds)

end

end CheckHandle
