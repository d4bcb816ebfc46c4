import CheckHandle.Failure
import CheckHandle.Syntax.Parser
import CheckHandle.Ty.Info
import CheckHandle.Ty.OfSyntax

/-!
# Stubs of other packages

A stub file declares packages by import path, with the types of their members
as texts. Loading reads these texts; a name without a package then means a type
of the package at hand, unless it is known everywhere.
-/

namespace CheckHandle

open Std

/-- A type that a stub file declares. -/
structure TypeStub where
  underlying : String
  methods : TreeMap String String := ∅

/-- A package that a stub file declares: type texts by member name. -/
structure PackageStub where
  funcs : TreeMap String String := ∅
  vars : TreeMap String String := ∅
  types : TreeMap String TypeStub := ∅

/-- Packages by import path. -/
abbrev StubFile := TreeMap String PackageStub

/-- The members of a package. -/
abbrev Members := TreeMap String Object

/-- All that is known of other packages. -/
structure StubSet where
  packages : TreeMap String Members := ∅
  named : NamedTypes := ∅

namespace StubSet

instance : Inhabited StubSet := ⟨{}⟩

/-- The member `name` of the package with this import path. -/
def member? (set : StubSet) (path name : String) : Option Object := do
  (← set.packages.get? path).get? name

/-- Adds the packages of `other`; what both declare is taken from `other`. -/
def merge (set other : StubSet) : StubSet where
  packages := other.packages.foldl
    (fun packages path members =>
      packages.insert path ((packages.getD path ∅).insertMany members.toList))
    set.packages
  named := set.named.insertMany other.named.toList

end StubSet

/-- How names are resolved inside the stub of a package. -/
def stubResolver (package : String) : Resolver
  | some other, name => some (.named other name)
  | none, name => (Ty.universe? name).or (some (.named package name))

/-- Reads the text of a type. -/
def readStubType (text : String) : Except StubFault TypeExpr :=
  match parseType text 0 with
  | .ok (ty, _) => .ok ty
  | .error fault =>
    .error (.badType text (fault.cause.category.title ++ ": " ++ fault.cause.message))

def loadType (package text : String) : Except StubFault Ty := do
  match (← readStubType text).resolve (stubResolver package) with
  | some ty => return ty
  | none => throw (.unresolvedType text)

def loadFunc (package text : String) : Except StubFault FuncTy := do
  match ← readStubType text with
  | .func _ sig =>
    match sig.resolve (stubResolver package) with
    | some sig => return sig
    | none => throw (.unresolvedFunc text)
  | _ => throw (.notFunc text)

def loadNamed (package : String) (stub : TypeStub) : Except StubFault NamedInfo := do
  let underlying ← loadType package stub.underlying
  let methods ← stub.methods.toList.mapM fun (name, text) => do
    return (name, ← loadFunc package text)
  return { underlying := some underlying, methods := TreeMap.ofList methods }

/-- Adds a package under its path. -/
def loadPackage (set : StubSet) (path : String) (stub : PackageStub) : Except StubFault StubSet := do
  let package := lastElement path
  let types ← stub.types.toList.mapM fun (name, ty) => do
    return (name, ← loadNamed package ty)
  let funcs ← stub.funcs.toList.mapM fun (name, text) => do
    return (name, Object.func (← loadFunc package text))
  let vars ← stub.vars.toList.mapM fun (name, text) => do
    return (name, Object.var (some (← loadType package text)))
  let typeNames := types.map fun (name, _) => (name, Object.typeName (.named package name))
  return {
    packages := set.packages.insert path (TreeMap.ofList (typeNames ++ funcs ++ vars))
    named := set.named.insertMany (types.map fun (name, info) => (qualifiedName package name, info)) }

def StubFile.load (file : StubFile) : Except StubFault StubSet :=
  file.toList.foldlM (fun set (path, stub) => loadPackage set path stub) {}

end CheckHandle
