import CheckHandle.Checker.Typing
import CheckHandle.Package

/-!
# Typing a package

Type names come first, then what they stand for, then functions and methods,
then package variables and constants, twice, because they may refer to each
other in any order, and last the bodies of functions.
-/

namespace CheckHandle

/-- Turns to a file: its imports are now in scope. -/
def enterFile (f : SourceFile) : CheckM Unit :=
  modify fun c => { c with
    file := f.path
    fileScope := (f.tree.imports.map fun i => (i.localName, .package i.path)).reverse }

/-- Declares the type names of a file. -/
def declareTypeNames : TopDecl → CheckM Unit
  | .decl (.types specs) => specs.forM fun spec =>
    modify fun c =>
      c.declareInPackage spec.name.name (.typeName (.named c.package spec.name.name))
  | _ => return

/-- Finds out what the types of a file stand for. -/
def declareTypes : TopDecl → CheckM Unit
  | .decl (.types specs) => specs.forM (declareType false)
  | _ => return

/-- The name under which the type of a receiver is known. -/
def receiverKey? (package : String) : TypeExpr → Option String
  | .pointer _ elem => receiverKey? package elem
  | .name _ none name => some (qualifiedName package name)
  | _ => none

/-- Declares a function, or a method with its type. -/
def declareFunc : TopDecl → CheckM Unit
  | .func f => do
    match ← resolveSignature f.sig with
    | none =>
      modify (·.diagnose f.name.info.span ("cannot resolve signature of " ++ f.name.name))
    | some sig =>
      match f.recv with
      | none => modify (·.declareInPackage f.name.name (.func sig))
      | some recv =>
        match receiverKey? (← get).package recv.ty with
        | some key =>
          modify (·.updateNamed key fun n => { n with methods := n.methods.insert f.name.name sig })
        | none => return
  | .decl _ => return

/-- Declares package variables and constants. -/
def declarePackageValues : TopDecl → CheckM Unit
  | .decl (.vars specs) => checkValueSpecs false false specs
  | .decl (.consts specs) => checkValueSpecs true false specs
  | _ => return

/-- Checks the body of a function. -/
def checkFuncBody : TopDecl → CheckM Unit
  | .func f =>
    match f.body with
    | none => return
    | some body => do
      modify Checker.pushScope
      declareParams f.recv.toList
      modify Checker.pushScope
      declareParams f.sig.params
      declareParams f.sig.results
      checkBlock body
      modify Checker.popScope
      modify Checker.popScope
  | .decl _ => return

/-- Does `step` for every declaration of every file. -/
def overFiles (files : List SourceFile) (step : TopDecl → CheckM Unit) : CheckM Unit :=
  files.forM fun f => do
    enterFile f
    f.tree.decls.forM step

/-- The interface that `error` stands for. -/
def errorInterface : Ty :=
  .interface [⟨"Error", ⟨[], [.basic .string], false⟩⟩] []

/-- The state before a package has been looked at. -/
def Checker.start (stubs : StubSet) (package : String) : Checker where
  stubs := stubs
  package := package
  info := { named := stubs.named.insert "error" { underlying := some errorInterface } }

def checkPackageM (files : List SourceFile) : CheckM Unit := do
  overFiles files declareTypeNames
  overFiles files declareTypes
  overFiles files declareFunc
  overFiles files declarePackageValues
  overFiles files declarePackageValues
  overFiles files checkFuncBody

/-- What can be found out about the types of a package. -/
def StubSet.check (stubs : StubSet) (p : Package) : TypeInfo :=
  (checkPackageM p.files (Checker.start stubs p.name)).2.info

end CheckHandle
