import CheckHandle.Check.Collector
import CheckHandle.Check.Handling
import CheckHandle.Check.Results

/-!
# Expanding checks

One pass over a marked file. A check whose type is known becomes temporaries
that are defined before its statement, followed by the handling of the error,
and the use of these temporaries in its place:

```text
x, y, err := f()
if err != nil { handling }
```

Checks are met from the inside out. When one of them has no type, those that
follow it in the same statement wait for the next pass, so that the order of
evaluation is kept.
-/

namespace CheckHandle

open Std

/-- What the passes over a package share. -/
structure ExpandState where
  collected : Collected
  /-- Lists that have received several values. -/
  spliced : TreeSet NodeId := ∅
  nextId : NodeId

/-- A statement that is being walked. -/
structure StmtFrame where
  /-- What goes before it. -/
  before : List Stmt := []
  /-- It holds a check without a type. -/
  interrupted : Bool := false
  /-- It was a check and nothing else. -/
  removed : Bool := false

/-- The state of a pass; the innermost statement comes first. -/
structure Expanding where
  shared : ExpandState
  frames : List StmtFrame := []
  expanded : Nat := 0

abbrev ExpandM := VisitM Expanding Fault

namespace Expanding

/-- Changes the frame of the innermost statement. -/
def updateFrame (s : Expanding) (change : StmtFrame → StmtFrame) : Expanding :=
  match s.frames with
  | [] => s
  | frame :: frames => { s with frames := change frame :: frames }

/-- A check without a type has been met in the innermost statement. -/
def isInterrupted (s : Expanding) : Bool :=
  match s.frames with
  | [] => false
  | frame :: _ => frame.interrupted

end Expanding

/-- Draws identities for the nodes that an expansion makes. -/
def drawIds {α : Type} (m : Fresh α) : ExpandM α := do
  let s ← get
  let (a, nextId) := m s.shared.nextId
  set { s with shared := { s.shared with nextId } }
  return a

/-- Names for the results of a check, from the scope of its block. -/
def allocateNames (block : NodeId) (kinds : List String) : ExpandM (List String) := do
  let s ← get
  let scopes := s.shared.collected.scopes
  let (names, scope) := (scopes.getD block {}).allocateAll kinds
  let collected := { s.shared.collected with scopes := scopes.insert block scope }
  set { s with shared := { s.shared with collected } }
  return names

/-- The statements before a check's statement: the definition of its
temporaries, and the handling of its error. -/
def checkPrelude (info : TypeInfo) (collected : Collected) (binding : CheckBinding)
    (values : List String) (errVar : String) (checked : Expr) : Fresh (List Stmt) := do
  let lhs ← (values ++ [errVar]).mapM Expr.fresh
  let define : Stmt := .assign (← freshInfo) lhs .define [checked]
  let default ← defaultHandler info (collected.funcs[binding.func]?.getD []) errVar
  let body ← handlingBody binding.chain collected.handlers errVar default
  let err ← Expr.fresh errVar
  let nil ← Expr.fresh "nil"
  let test : Expr := .binary (← freshInfo) .ne err nil
  let block : Block := ⟨← freshInfo, body⟩
  return [define, .cond (← freshInfo) none test block none]

/-- What stands for a check with these results in its place, and the names that
its values are bound to. -/
def placeResults (x : Expr) (slot : Slot) (values : List String) (errVar : String) :
    ExpandM (List String × ExprAction) := do
  match slot with
  | .statement =>
    modify (·.updateFrame fun frame => { frame with removed := true })
    return (values.map fun _ => "_", .keep)
  | .list owner kind =>
    if 2 ≤ values.length then
      let s ← get
      if s.shared.spliced.contains owner then
        refuse (.multipleMultiValue kind.describe) x.info.span
      set { s with shared := { s.shared with spliced := s.shared.spliced.insert owner } }
      return (values, .splice (← drawIds (values.mapM Expr.fresh)))
    else return (values, .replace (← drawIds (Expr.fresh (values.headD errVar))))
  | .single =>
    if 2 ≤ values.length then refuse .multiValueContext x.info.span
    else return (values, .replace (← drawIds (Expr.fresh (values.headD errVar))))

/-- Expands one check of the type `ty`. -/
def expandCheck (info : TypeInfo) (x : Expr) (slot : Slot) (binding : CheckBinding) (ty : Ty) :
    ExpandM ExprAction := do
  match resultNames info ty with
  | .error cause => refuse cause x.info.span
  | .ok kinds =>
    let names ← allocateNames binding.block kinds
    let errVar := names.getLastD ""
    match x.argsOf? checkFunc with
    | some [checked] =>
      let (values, action) ← placeResults x slot names.dropLast errVar
      let collected := (← get).shared.collected
      let stmts ← drawIds (checkPrelude info collected binding values errVar checked)
      modify (·.updateFrame fun frame => { frame with before := frame.before ++ stmts })
      modify fun s => { s with expanded := s.expanded + 1 }
      return action
    | _ =>
      refuseInternal (.markerMisaligned .check "a call with one argument" "a rewritten expression")
        x.info.span

/-- The visitor that expands the checks of the file with number `file`. -/
def expander (info : TypeInfo) (file : Nat) : Visitor Expanding Fault where
  enterStmt _ := do
    modify fun s => { s with frames := {} :: s.frames }
    return .walk
  exitStmt _ := do
    let s ← get
    set { s with frames := s.frames.tail }
    match s.frames with
    | [] => return {}
    | frame :: _ => return { before := frame.before, remove := frame.removed }
  exitExpr x position := do
    let s ← get
    match s.shared.collected.checks.get? x.info.id with
    | none => return .keep
    | some binding =>
      if binding.file != file || s.isInterrupted then return .keep
      match info.typeOf x.info.id with
      | none =>
        modify (·.updateFrame fun frame => { frame with interrupted := true })
        return .keep
      | some ty =>
        let collected := s.shared.collected
        let collected := { collected with checks := collected.checks.erase x.info.id }
        set { s with shared := { s.shared with collected } }
        expandCheck info x position.slot binding ty

/-- The outcome of a pass over one file. -/
structure ExpandedFile where
  tree : File
  state : ExpandState
  /-- How many checks were expanded. -/
  expanded : Nat
  fault : Option Fault

/-- Expands the checks of one file whose types are known. -/
def expandFile (info : TypeInfo) (file : Nat) (tree : File) (state : ExpandState) : ExpandedFile :=
  let (tree, w) := walkFile (expander info file) tree ⟨{ shared := state }, none⟩
  { tree, state := w.state.shared, expanded := w.state.expanded, fault := w.failure }

end CheckHandle
