import Std.Data.TreeMap
import CheckHandle.Span
import CheckHandle.Ty.Printer

/-!
# What is known about types

The declared types with their methods, the objects that names denote, and the
record of one pass over a package: the types of its nodes, the objects its
identifiers use, and what could not be understood.
-/

namespace CheckHandle

open Std

/-- What is known of a declared type. -/
structure NamedInfo where
  underlying : Option Ty := none
  methods : TreeMap String FuncTy := ∅

instance : Inhabited NamedInfo := ⟨{}⟩

instance : BEq NamedInfo where
  beq a b := a.underlying == b.underlying && a.methods.toList == b.methods.toList

/-- Declared types by qualified name. -/
abbrev NamedTypes := TreeMap String NamedInfo

/-- What an identifier denotes. -/
inductive Object where
  /-- A variable; its type is missing if its value could not be typed. -/
  | var (ty : Option Ty)
  | const (ty : Ty)
  | typeName (ty : Ty)
  | func (sig : FuncTy)
  | package (path : String)
  | builtin (name : String)
  | nil
deriving Inhabited

/-- A complaint that does not stop the pass. -/
structure Diagnostic where
  file : String
  span : Span
  message : String
deriving DecidableEq, Inhabited

/-- What one pass over a package has found out. -/
structure TypeInfo where
  /-- Types of expressions and of written types, by node. -/
  types : TreeMap NodeId Ty := ∅
  uses : TreeMap NodeId Object := ∅
  diagnostics : List Diagnostic := []
  named : NamedTypes := ∅

instance : Inhabited TypeInfo := ⟨{}⟩

/-- The type under declared names, through at most `steps` of them. -/
def NamedTypes.follow (types : NamedTypes) : (steps : Nat) → Ty → Option Ty
  | 0, _ => none
  | steps + 1, .named package name => do
    types.follow steps (← (← types.get? (qualifiedName package name)).underlying)
  | _ + 1, t => some t

namespace TypeInfo

def typeOf (info : TypeInfo) (id : NodeId) : Option Ty :=
  info.types.get? id

/-- The type under declared names. Chains are short; the bound stops at a type
that is declared by way of itself. -/
def underlying (info : TypeInfo) (t : Ty) : Option Ty :=
  info.named.follow 16 t

end TypeInfo

end CheckHandle
