/-!
# Types

The types of values: basic types, declared types known by name, and the types
built from them. A call with no result or with several has a tuple.
-/

namespace CheckHandle

/-- Predeclared types, and the kinds of constants that have no type yet. -/
inductive Basic where
  | bool
  | string
  | int
  | int8
  | int16
  | int32
  | int64
  | uint
  | uint8
  | uint16
  | uint32
  | uint64
  | uintptr
  | float32
  | float64
  | complex64
  | complex128
  | untypedBool
  | untypedInt
  | untypedRune
  | untypedFloat
  | untypedComplex
  | untypedString
  | untypedNil
deriving DecidableEq, Inhabited

namespace Basic

/-- The basic types that a program can name. -/
def typed : List Basic :=
  [.bool, .string, .int, .int8, .int16, .int32, .int64, .uint, .uint8, .uint16, .uint32, .uint64,
   .uintptr, .float32, .float64, .complex64, .complex128]

def name : Basic → String
  | .bool => "bool"
  | .string => "string"
  | .int => "int"
  | .int8 => "int8"
  | .int16 => "int16"
  | .int32 => "int32"
  | .int64 => "int64"
  | .uint => "uint"
  | .uint8 => "uint8"
  | .uint16 => "uint16"
  | .uint32 => "uint32"
  | .uint64 => "uint64"
  | .uintptr => "uintptr"
  | .float32 => "float32"
  | .float64 => "float64"
  | .complex64 => "complex64"
  | .complex128 => "complex128"
  | .untypedBool => "untyped bool"
  | .untypedInt => "untyped int"
  | .untypedRune => "untyped rune"
  | .untypedFloat => "untyped float"
  | .untypedComplex => "untyped complex"
  | .untypedString => "untyped string"
  | .untypedNil => "untyped nil"

/-- The basic type of a name; `rune` and `byte` are further names. -/
def ofName? (s : String) : Option Basic :=
  if s == "rune" then some .int32
  else if s == "byte" then some .uint8
  else typed.find? fun b => b.name == s

def isBoolean (b : Basic) : Bool :=
  b == .bool || b == .untypedBool

def isString (b : Basic) : Bool :=
  b == .string || b == .untypedString

def isUntyped : Basic → Bool
  | .untypedBool | .untypedInt | .untypedRune | .untypedFloat | .untypedComplex | .untypedString
  | .untypedNil => true
  | _ => false

/-- The type of a new variable that starts with a constant of this kind. -/
def defaulted : Basic → Basic
  | .untypedBool => .bool
  | .untypedInt => .int
  | .untypedRune => .int32
  | .untypedFloat => .float64
  | .untypedComplex => .complex128
  | .untypedString => .string
  | b => b

/-- Of two kinds of numeric constants in one operation the higher wins. -/
def rank : Basic → Nat
  | .untypedInt => 1
  | .untypedRune => 2
  | .untypedFloat => 3
  | .untypedComplex => 4
  | _ => 0

end Basic

mutual

inductive Ty where
  | basic (b : Basic)
  /-- A declared type; the package is empty for one known everywhere. -/
  | named (package name : String)
  | pointer (elem : Ty)
  | slice (elem : Ty)
  | array (len : Option Nat) (elem : Ty)
  | map (key value : Ty)
  | func (sig : FuncTy)
  | struct (fields : List StructField)
  /-- Methods, and embedded interfaces. -/
  | interface (methods : List Method) (embeds : List Ty)
  | tuple (items : List Ty)

/-- The type of a function. If it is variadic, its last parameter is a slice. -/
structure FuncTy where
  params : List Ty
  results : List Ty
  variadic : Bool

structure StructField where
  name : String
  ty : Ty
  embedded : Bool

structure Method where
  name : String
  sig : FuncTy

end

instance : Inhabited Ty := ⟨.tuple []⟩

instance : Inhabited FuncTy := ⟨⟨[], [], false⟩⟩

mutual

def Ty.beq : Ty → Ty → Bool
  | .basic a, .basic b => a == b
  | .named p n, .named p' n' => p == p' && n == n'
  | .pointer a, .pointer b => a.beq b
  | .slice a, .slice b => a.beq b
  | .array n a, .array m b => n == m && a.beq b
  | .map k v, .map k' v' => k.beq k' && v.beq v'
  | .func a, .func b => a.beq b
  | .struct fs, .struct gs => beqFields fs gs
  | .interface ms es, .interface ms' es' => beqMethods ms ms' && beqTys es es'
  | .tuple xs, .tuple ys => beqTys xs ys
  | _, _ => false
termination_by structural x => x

def FuncTy.beq : FuncTy → FuncTy → Bool
  | ⟨ps, rs, v⟩, ⟨ps', rs', v'⟩ => beqTys ps ps' && beqTys rs rs' && v == v'
termination_by structural x => x

def beqTys : List Ty → List Ty → Bool
  | [], [] => true
  | x :: xs, y :: ys => x.beq y && beqTys xs ys
  | _, _ => false
termination_by structural x => x

def beqFields : List StructField → List StructField → Bool
  | [], [] => true
  | ⟨n, t, e⟩ :: fs, ⟨n', t', e'⟩ :: gs => n == n' && t.beq t' && e == e' && beqFields fs gs
  | _, _ => false
termination_by structural x => x

def beqMethods : List Method → List Method → Bool
  | [], [] => true
  | ⟨n, s⟩ :: ms, ⟨n', s'⟩ :: ms' => n == n' && s.beq s' && beqMethods ms ms'
  | _, _ => false
termination_by structural x => x

end

instance : BEq Ty := ⟨Ty.beq⟩

instance : BEq FuncTy := ⟨FuncTy.beq⟩

/-- The type of a call: the only result, or a tuple. -/
def FuncTy.callResult (sig : FuncTy) : Ty :=
  match sig.results with
  | [single] => single
  | many => .tuple many

namespace Ty

/-- The predeclared type `error`. -/
def error : Ty := .named "" "error"

def isError : Ty → Bool
  | .named package name => package == "" && name == "error"
  | _ => false

/-- The type of a new variable that starts with a value of this type. -/
def defaulted : Ty → Ty
  | .basic b => .basic b.defaulted
  | t => t

/-- The type of an arithmetic operation on values of the types `s` and `t`. -/
def unify (s t : Ty) : Ty :=
  match s with
  | .basic a =>
    if a.isUntyped then
      match t with
      | .basic b => if b.isUntyped && b.rank ≤ a.rank then s else t
      | _ => t
    else s
  | _ => s

/-- The type of a name that is known everywhere. -/
def universe? (name : String) : Option Ty :=
  if name == "error" then some error
  else if name == "any" then some (.interface [] [])
  else (Basic.ofName? name).map .basic

end Ty

end CheckHandle
