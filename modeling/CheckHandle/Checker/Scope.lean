import CheckHandle.Stub.Basic

/-!
# Scopes

The state of a pass over a package: what has been found out, and what names
mean at the point that has been reached. Local scopes form a stack, the
innermost first; around them lie the imports of the file, the package, and the
names that are known everywhere.
-/

namespace CheckHandle

/-- Names with their objects; a later entry hides an earlier one. -/
abbrev Scope := List (String × Object)

/-- Functions that are known everywhere. -/
def builtinFuncs : List String :=
  ["append", "cap", "clear", "close", "complex", "copy", "delete", "imag", "len", "make", "max",
   "min", "new", "panic", "print", "println", "real", "recover"]

/-- What a name means that is declared nowhere. -/
def universeObject? (name : String) : Option Object :=
  match Ty.universe? name with
  | some ty => some (.typeName ty)
  | none =>
    if builtinFuncs.contains name then some (.builtin name)
    else if name == "true" || name == "false" then some (.const (.basic .untypedBool))
    else if name == "iota" then some (.const (.basic .untypedInt))
    else if name == "nil" then some .nil
    else none

structure Checker where
  stubs : StubSet
  /-- The name of the package that is checked. -/
  package : String
  /-- The name of the file that is checked. -/
  file : String := ""
  info : TypeInfo
  packageScope : Scope := []
  /-- The imports of the file. -/
  fileScope : Scope := []
  locals : List Scope := []

instance : Inhabited Checker := ⟨{ stubs := {}, package := "", info := {} }⟩

abbrev CheckM := StateM Checker

namespace Checker

/-- What a name means here. -/
def lookup (c : Checker) (name : String) : Option Object :=
  (c.locals.findSome? fun scope => scope.lookup name).orElse fun _ =>
    (c.fileScope.lookup name).orElse fun _ =>
      (c.packageScope.lookup name).orElse fun _ => universeObject? name

/-- What a type name means here. -/
def resolver (c : Checker) : Resolver
  | some package, name =>
    match c.lookup package with
    | some (.package path) =>
      match c.stubs.member? path name with
      | some (.typeName ty) => some ty
      | _ => none
    | _ => none
  | none, name =>
    match c.lookup name with
    | some (.typeName ty) => some ty
    | _ => none

/-- Adds a name to the package. -/
def declareInPackage (c : Checker) (name : String) (object : Object) : Checker :=
  { c with packageScope := (name, object) :: c.packageScope }

/-- Adds a name to the innermost local scope, or to the package if there is
none or the name is not `isLocal`. A blank name declares nothing. -/
def declare (c : Checker) (isLocal : Bool) (name : String) (object : Object) : Checker :=
  if name == "_" then c
  else
    match isLocal, c.locals with
    | true, scope :: scopes => { c with locals := ((name, object) :: scope) :: scopes }
    | _, _ => c.declareInPackage name object

def diagnose (c : Checker) (span : Span) (message : String) : Checker :=
  { c with info := { c.info with
      diagnostics := c.info.diagnostics ++ [⟨c.file, span, message⟩] } }

/-- Records the type of a node. -/
def recordType (c : Checker) (id : NodeId) (ty : Ty) : Checker :=
  { c with info := { c.info with types := c.info.types.insert id ty } }

/-- Records what an identifier denotes. -/
def recordUse (c : Checker) (id : NodeId) (object : Object) : Checker :=
  { c with info := { c.info with uses := c.info.uses.insert id object } }

/-- Changes what is known of a declared type. -/
def updateNamed (c : Checker) (key : String) (change : NamedInfo → NamedInfo) : Checker :=
  { c with info := { c.info with
      named := c.info.named.insert key (change (c.info.named.getD key {})) } }

def pushScope (c : Checker) : Checker :=
  { c with locals := [] :: c.locals }

def popScope (c : Checker) : Checker :=
  { c with locals := c.locals.tail }

end Checker

/-- The meaning of a written type, recorded for its node. -/
def resolveType (ty : TypeExpr) : CheckM (Option Ty) := do
  match ty.resolve (← get).resolver with
  | some t =>
    modify (·.recordType ty.info.id t)
    return some t
  | none =>
    modify (·.diagnose ty.info.span "undefined type")
    return none

/-- The type of a signature. The types of its results are recorded for their
nodes. -/
def resolveSignature (sig : Signature) : CheckM (Option FuncTy) := do
  let names := (← get).resolver
  sig.resultSlots.forM fun result =>
    match result.resolve names with
    | some t => modify (·.recordType result.info.id t)
    | none => return
  return sig.resolve names

/-- Declares parameters or results. -/
def declareParams (fields : List Field) : CheckM Unit :=
  fields.forM fun field => do
    let ty ← resolveType field.ty
    let ty := if field.variadic then ty.map .slice else ty
    field.names.forM fun name => modify (·.declare true name.name (.var ty))

/-- Declares a type. A package-level name is known before, unless it is an
alias. -/
def declareType (isLocal : Bool) (spec : TypeSpec) : CheckM Unit := do
  let resolved ← resolveType spec.ty
  let name := spec.name.name
  if spec.isAlias then
    match resolved with
    | some ty => modify (·.declare isLocal name (.typeName ty))
    | none => pure ()
  else
    let package := (← get).package
    modify (·.updateNamed (qualifiedName package name) fun n => { n with underlying := resolved })
    if isLocal then modify (·.declare true name (.typeName (.named package name)))

end CheckHandle
