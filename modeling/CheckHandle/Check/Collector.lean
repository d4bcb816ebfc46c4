import CheckHandle.Check.Binding
import CheckHandle.Failure
import CheckHandle.Marker.Lowering
import CheckHandle.Package
import CheckHandle.Syntax.Visitor

/-!
# Collecting checks and handlers

One walk over a marked file ties every marker to the node at its offset. The
conditional of a handler leaves the tree and becomes a handler; a check records
the handlers that are in force at its statement, the latest first. A check
where its expression may run never or more than once is refused.
-/

namespace CheckHandle

open Std

/-- A block that is being walked, with the handlers declared in it so far, the
latest first. -/
structure BlockFrame where
  id : NodeId
  handlers : List Nat := []
deriving DecidableEq, Inhabited

/-- A function that is being walked, with its open blocks, the innermost
first. -/
structure FuncFrame where
  index : Nat
  blocks : List BlockFrame := []
deriving DecidableEq, Inhabited

/-- The state of collection. Frames and statements have the innermost first. -/
structure Collecting where
  out : Collected
  funcs : List FuncFrame := []
  stmts : List NodeId := []
  boundChecks : TreeSet Nat := ∅
  boundHandles : TreeSet Nat := ∅

abbrev CollectM := VisitM Collecting Fault

/-- Fails at a span of the file at hand. -/
def refuse {σ α : Type} (cause : Cause) (span : Span) : VisitM σ Fault α :=
  throw { cause, span }

/-- Fails with a fault that no input should bring about. -/
def refuseInternal {σ α : Type} (cause : Cause) (span : Span) : VisitM σ Fault α :=
  throw { cause, span, internal := true }

namespace Collecting

/-- The handlers that are in force here, the innermost first. -/
def chain (s : Collecting) : List Nat :=
  match s.funcs with
  | [] => []
  | func :: _ => func.blocks.flatMap BlockFrame.handlers

/-- The innermost open block. -/
def block? (s : Collecting) : Option NodeId := do
  return (← (← s.funcs.head?).blocks.head?).id

/-- Adds a function with its result types. -/
def pushFunc (s : Collecting) (slots : List TypeExpr) : Collecting :=
  { s with
    out := { s.out with funcs := s.out.funcs ++ [slots] }
    funcs := ⟨s.out.funcs.length, []⟩ :: s.funcs }

def popFunc (s : Collecting) : Collecting :=
  { s with funcs := s.funcs.tail }

def pushBlock (s : Collecting) (id : NodeId) : Collecting :=
  let scopes := if s.out.scopes.contains id then s.out.scopes else s.out.scopes.insert id {}
  let funcs := match s.funcs with
    | [] => []
    | func :: funcs => { func with blocks := ⟨id, []⟩ :: func.blocks } :: funcs
  { s with out := { s.out with scopes }, funcs }

def popBlock (s : Collecting) : Collecting :=
  match s.funcs with
  | [] => s
  | func :: funcs => { s with funcs := { func with blocks := func.blocks.tail } :: funcs }

/-- Puts a handler into force in the innermost block, if there is one. -/
def addHandler (s : Collecting) (index : Nat) : Option Collecting :=
  match s.funcs with
  | [] => none
  | func :: funcs =>
    match func.blocks with
    | [] => none
    | block :: blocks =>
      let block := { block with handlers := index :: block.handlers }
      some { s with funcs := { func with blocks := block :: blocks } :: funcs }

/-- Records the function and the block that own a statement. -/
def ownStmt (s : Collecting) (id : NodeId) : Collecting :=
  match s.funcs with
  | [] => s
  | func :: _ =>
    let o := s.out.ownership
    let o := { o with func := o.func.insert id func.index }
    let o := match func.blocks with
      | [] => o
      | block :: _ => { o with block := o.block.insert id block.id }
    { s with out := { s.out with ownership := o } }

/-- Records the owners of an expression, if it stands in a statement. -/
def ownExpr (s : Collecting) (id : NodeId) : Collecting :=
  match s.funcs, s.stmts with
  | _ :: _, stmt :: _ =>
    let s := s.ownStmt id
    let o := s.out.ownership
    { s with out := { s.out with ownership := { o with stmt := o.stmt.insert id stmt } } }
  | _, _ => s

end Collecting

/-- The body of the conditional that a handler is lowered to. -/
def handlerBody? : Stmt → Option Block
  | .cond _ none test body none => if test.ident? == some handleFlag then some body else none
  | _ => none

/-- What a statement is, in words. -/
def Stmt.describe : Stmt → String
  | .expr .. => "an expression statement"
  | .assign .. => "an assignment"
  | .incDec .. => "an increment"
  | .decl .. => "a declaration"
  | .ret .. => "a return statement"
  | .cond .. => "a conditional with an init or else"
  | .loop .. | .range .. => "a loop"
  | .switch .. => "a switch"
  | .block .. => "a block"
  | .go .. | .defer .. => "a go or defer statement"
  | .branch .. => "a branch statement"

/-- Why a check is refused in a region, if it is. -/
def Region.refusal? : Region → Option String
  | .body => none
  | .loopHeader => some "a for loop condition or post statement"
  | .elseIfHeader => some "an else-if header"
  | .laterCase => some "a case value after the first"
  | .deferred => some "a go or defer statement"
  | .packageLevel => some "a package-level initializer"

/-- Takes a handler out of the tree. -/
def collectHandler (stmt : Stmt) (errName : String) : CollectM Enter := do
  let span := stmt.info.span
  match handlerBody? stmt with
  | none =>
    refuseInternal (.markerMisaligned .handle "a conditional with a block" stmt.describe) span
  | some body =>
    let s ← get
    let index := s.out.handlers.length
    let handlers := s.out.handlers ++ [⟨errName, body, span⟩]
    let s := { s with out := { s.out with handlers } }
    set s
    match s.addHandler index with
    | none => refuse (.unsupportedPosition "a handle outside a function body") span
    | some s =>
      set s
      return .remove

/-- Binds a check. -/
def collectCheck (file : Nat) (x : Expr) (region : Region) : CollectM Unit := do
  let span := x.info.span
  match region.refusal? with
  | some place => refuse (.unsupportedPosition place) span
  | none => pure ()
  let count := ((x.argsOf? checkFunc).getD []).length
  if count != 1 then
    refuseInternal (.markerMisaligned .check "a call with one argument"
      ("a call with " ++ toString count ++ " arguments")) span
  let s ← get
  match s.funcs, s.stmts with
  | func :: _, stmt :: _ =>
    match s.block? with
    | none => refuseInternal (.markerUnclaimed .check span.start) span
    | some block =>
      let binding : CheckBinding :=
        { id := x.info.id, file, span, func := func.index, block, stmt, chain := s.chain }
      set { s with out := { s.out with checks := s.out.checks.insert x.info.id binding } }
  | _, _ => refuse (.unsupportedPosition "a package-level initializer") span

/-- An expression that starts where its left part starts. -/
def Expr.startsWithPart : Expr → Bool
  | .binary .. | .keyValue .. => true
  | _ => false

/-- The visitor that collects the markers of the file with number `file`. -/
def collector (markers : Markers) (file : Nat) : Visitor Collecting Fault where
  enterFunc sig := modify (·.pushFunc sig.resultSlots)
  exitFunc := modify Collecting.popFunc
  enterBlock block := modify (·.pushBlock block.info.id)
  exitBlock _ := modify Collecting.popBlock
  enterStmt stmt := do
    let offset := stmt.info.span.start
    let s ← get
    match markers.handles.get? offset with
    | some errName =>
      if !s.boundHandles.contains offset then
        set { s with boundHandles := s.boundHandles.insert offset }
        return ← collectHandler stmt errName
    | none => pure ()
    let s := s.ownStmt stmt.info.id
    set { s with stmts := stmt.info.id :: s.stmts }
    return .walk
  exitStmt _ := do
    modify fun s => { s with stmts := s.stmts.tail }
    return {}
  exitExpr x position := do
    let s := (← get).ownExpr x.info.id
    set s
    let offset := x.info.span.start
    if markers.checks.contains offset && !x.startsWithPart && (x.argsOf? checkFunc).isSome
        && !s.boundChecks.contains offset then
      set { s with boundChecks := s.boundChecks.insert offset }
      collectCheck file x position.region
    return .keep

/-- The first marker that no node is bound to: a check before a handler. -/
def unclaimed? (markers : Markers) (s : Collecting) : Option (MarkerKind × Nat) :=
  let check := markers.checks.toList.find? fun offset => !s.boundChecks.contains offset
  let handle := (markers.handles.toList.map Prod.fst).find? fun offset =>
    !s.boundHandles.contains offset
  (check.map fun offset => (.check, offset)).or (handle.map fun offset => (.handle, offset))

/-- Collects the markers of one file into `out`. -/
def collectFile (markers : Markers) (file : Nat) (tree : File) (out : Collected) :
    Except Fault (File × Collected) :=
  let (tree, w) := walkFile (collector markers file) tree ⟨{ out }, none⟩
  match w.failure with
  | some fault => .error fault
  | none =>
    match unclaimed? markers w.state with
    | some (marker, offset) => .error ⟨.markerUnclaimed marker offset, ⟨offset, offset⟩, true⟩
    | none => .ok (tree, w.state.out)

/-- Collects the markers of the marked files from number `index` on. -/
def collectFiles (index : Nat) (out : Collected) :
    List SourceFile → Except Failure (List SourceFile × Collected)
  | [] => .ok ([], out)
  | file :: files =>
    match file.lowered with
    | none => do
      let (files, out) ← collectFiles (index + 1) out files
      return (file :: files, out)
    | some lowered =>
      match collectFile lowered.markers index file.tree out with
      | .error fault => .error ((file.site .collect).locate fault)
      | .ok (tree, out) => do
        let (files, out) ← collectFiles (index + 1) out files
        return ({ file with tree } :: files, out)

/-- Collects the markers of a package. -/
def Package.collect (p : Package) : Except Failure (Package × Collected) := do
  let (files, out) ← collectFiles 0 {} p.files
  return ({ p with files }, out)

end CheckHandle
