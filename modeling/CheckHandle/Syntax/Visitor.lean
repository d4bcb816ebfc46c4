import CheckHandle.Syntax.Basic

/-!
# Walking and changing a file

A `Visitor` is told about functions, blocks, statements and expressions, and
answers each with a decision. The walk applies the decision while it holds the
parent. Only statements that stand directly in a block are reported; a
statement in a header, such as the first part of `if x := f(); x > 0`, is a
part of its owner. Expressions are reported after their parts.

When a visitor fails, the walk keeps what it has changed so far, changes
nothing more and reports nothing more.
-/

namespace CheckHandle

/-- The lists in which one value may be replaced by several. -/
inductive ListKind where
  | arguments
  | assigned
  | returned
deriving DecidableEq, Inhabited

def ListKind.describe : ListKind → String
  | .arguments => "argument list"
  | .assigned => "assignment"
  | .returned => "return statement"

/-- Where an expression stands in its parent. -/
inductive Slot where
  /-- An element of the list that belongs to the node `owner`. -/
  | list (owner : NodeId) (kind : ListKind)
  /-- The whole of an expression statement of a block. -/
  | statement
  /-- Exactly one value is expected. -/
  | single
deriving DecidableEq, Inhabited

/-- How often and when an expression is evaluated. -/
inductive Region where
  /-- Once, where its statement runs. -/
  | body
  /-- On every iteration: the test or the step of a loop. -/
  | loopHeader
  /-- Only if an earlier test fails. -/
  | elseIfHeader
  /-- Only if no earlier case matches. -/
  | laterCase
  /-- The operand of `go` or `defer`. -/
  | deferred
  /-- Outside any function. -/
  | packageLevel
deriving DecidableEq, Inhabited

structure Position where
  slot : Slot
  region : Region
deriving DecidableEq, Inhabited

/-- What becomes of an expression. -/
inductive ExprAction where
  | keep
  | replace (x : Expr)
  /-- Several values in place of one. Outside a list it counts only if it gives
  one value. -/
  | splice (xs : List Expr)

/-- What becomes of a statement: others may come before it, and it may go. -/
structure StmtAction where
  before : List Stmt := []
  remove : Bool := false

/-- How to go on at a statement. -/
inductive Enter where
  | walk
  /-- Keep the statement, but do not look into it. -/
  | skip
  | remove
deriving DecidableEq, Inhabited

/-- A step of a visitor: it changes the state and may fail. -/
abbrev VisitM (σ ε : Type) := ExceptT ε (StateM σ)

structure Visitor (σ ε : Type) where
  /-- Before a function body: that of a declaration or of a literal. -/
  enterFunc : Signature → VisitM σ ε Unit := fun _ => pure ()
  exitFunc : VisitM σ ε Unit := pure ()
  enterBlock : Block → VisitM σ ε Unit := fun _ => pure ()
  exitBlock : Block → VisitM σ ε Unit := fun _ => pure ()
  enterStmt : Stmt → VisitM σ ε Enter := fun _ => pure .walk
  exitStmt : Stmt → VisitM σ ε StmtAction := fun _ => pure {}
  exitExpr : Expr → Position → VisitM σ ε ExprAction := fun _ _ => pure .keep

/-- The state of a walk: that of the visitor, and the failure that ended it. -/
structure Walk (σ ε : Type) where
  state : σ
  failure : Option ε := none

/-- A part of a walk. -/
abbrev WalkM (σ ε : Type) := StateM (Walk σ ε)

/-- Asks the visitor, unless it has failed; then the answer is `idle`. -/
def ask {σ ε α : Type} (idle : α) (step : VisitM σ ε α) : WalkM σ ε α := fun w =>
  match w.failure with
  | some _ => (idle, w)
  | none =>
    match step w.state with
    | (.ok a, s) => (a, ⟨s, none⟩)
    | (.error e, s) => (idle, ⟨s, some e⟩)

/-- An expression after its visit, and the values it is spliced into, if any. -/
structure Visited where
  expr : Expr
  values : Option (List Expr)

/-- The expression in a place that holds exactly one. -/
def Visited.one (v : Visited) : Expr :=
  match v.values with
  | some [x] => x
  | _ => v.expr

/-- The expressions in a place that holds any number. -/
def Visited.many (v : Visited) : List Expr :=
  v.values.getD [v.expr]

/-- Reports an expression whose parts have been visited. -/
def Visitor.leave {σ ε : Type} (v : Visitor σ ε) (region : Region) (slot : Slot) (x : Expr) :
    WalkM σ ε Visited := do
  match ← ask .keep (v.exitExpr x ⟨slot, region⟩) with
  | .keep => return ⟨x, none⟩
  | .replace y => return ⟨y, none⟩
  | .splice ys => return ⟨x, some ys⟩

/-- The place of a statement: in a block, in the header of its owner, or after
`else`. -/
inductive Place where
  | owned
  | header
  | other
deriving DecidableEq

/-- The region of a conditional's header. -/
def Place.headerRegion (place : Place) (region : Region) : Region :=
  match place with
  | .other => .elseIfHeader
  | _ => region

/-- The slot of the expression in an expression statement. -/
def Place.exprSlot : Place → Slot
  | .owned => .statement
  | _ => .single

section

variable {σ ε : Type} (v : Visitor σ ε)

mutual

def walkExpr (region : Region) (slot : Slot) : Expr → WalkM σ ε Visited
  | .ident info name => v.leave region slot (.ident info name)
  | .lit info kind text => v.leave region slot (.lit info kind text)
  | .composite info ty elts => do
    let elts ← walkEach region elts
    v.leave region slot (.composite info ty elts)
  | .funcLit info sig body => do
    ask () (v.enterFunc sig)
    let body ← walkBlock body
    ask () v.exitFunc
    v.leave region slot (.funcLit info sig body)
  | .paren info x => do
    let x ← walkExpr region .single x
    v.leave region slot (.paren info x.one)
  | .selector info x sel => do
    let x ← walkExpr region .single x
    v.leave region slot (.selector info x.one sel)
  | .index info x index => do
    let x ← walkExpr region .single x
    let index ← walkExpr region .single index
    v.leave region slot (.index info x.one index.one)
  | .slice info x lo hi max => do
    let x ← walkExpr region .single x
    let lo ← walkExpr? region lo
    let hi ← walkExpr? region hi
    let max ← walkExpr? region max
    v.leave region slot (.slice info x.one lo hi max)
  | .typeAssert info x ty => do
    let x ← walkExpr region .single x
    v.leave region slot (.typeAssert info x.one ty)
  | .call info fn args ellipsis => do
    let fn ← walkExpr region .single fn
    let args ← walkList region (.list info.id .arguments) args
    v.leave region slot (.call info fn.one args ellipsis)
  | .unary info op x => do
    let x ← walkExpr region .single x
    v.leave region slot (.unary info op x.one)
  | .binary info op x y => do
    let x ← walkExpr region .single x
    let y ← walkExpr region .single y
    v.leave region slot (.binary info op x.one y.one)
  | .keyValue info key value => do
    let key ← walkExpr region .single key
    let value ← walkExpr region .single value
    v.leave region slot (.keyValue info key.one value.one)
  | .type info ty => v.leave region slot (.type info ty)

def walkExpr? (region : Region) : Option Expr → WalkM σ ε (Option Expr)
  | none => return none
  | some x => do return some (← walkExpr region .single x).one

/-- Expressions of which each stands for one value. -/
def walkEach (region : Region) : List Expr → WalkM σ ε (List Expr)
  | [] => return []
  | x :: xs => do
    let x ← walkExpr region .single x
    return x.one :: (← walkEach region xs)

/-- A list that takes any number of values. -/
def walkList (region : Region) (slot : Slot) : List Expr → WalkM σ ε (List Expr)
  | [] => return []
  | x :: xs => do
    let x ← walkExpr region slot x
    return x.many ++ (← walkList region slot xs)

def walkBlock : Block → WalkM σ ε Block
  | ⟨info, stmts⟩ => do
    ask () (v.enterBlock ⟨info, stmts⟩)
    let block : Block := ⟨info, ← walkStmts stmts⟩
    ask () (v.exitBlock block)
    return block

def walkStmts : List Stmt → WalkM σ ε (List Stmt)
  | [] => return []
  | s :: ss => do
    match ← ask .walk (v.enterStmt s) with
    | .remove => walkStmts ss
    | .skip => return s :: (← walkStmts ss)
    | .walk => do
      let s ← walkStmt .body .owned s
      let action ← ask {} (v.exitStmt s)
      let rest ← walkStmts ss
      return action.before ++ (if action.remove then rest else s :: rest)

def walkStmt (region : Region) (place : Place) : Stmt → WalkM σ ε Stmt
  | .expr info x => do
    let x ← walkExpr region place.exprSlot x
    return .expr info x.one
  | .assign info lhs op rhs => do
    let lhs ← walkEach region lhs
    let rhs ← walkList region (.list info.id .assigned) rhs
    return .assign info lhs op rhs
  | .incDec info x increment => do
    let x ← walkExpr region .single x
    return .incDec info x.one increment
  | .decl info d => do return .decl info (← walkDecl region d)
  | .ret info results => do
    return .ret info (← walkList region (.list info.id .returned) results)
  | .cond info init test body other => do
    let init ← walkHeader? (place.headerRegion region) init
    let test ← walkExpr (place.headerRegion region) .single test
    let body ← walkBlock body
    let other ← walkOther? region other
    return .cond info init test.one body other
  | .loop info init test post body => do
    let init ← walkHeader? region init
    let test ← walkExpr? .loopHeader test
    let post ← walkHeader? .loopHeader post
    let body ← walkBlock body
    return .loop info init test post body
  | .range info key value define x body => do
    let key ← walkExpr? region key
    let value ← walkExpr? region value
    let x ← walkExpr region .single x
    let body ← walkBlock body
    return .range info key value define x.one body
  | .switch info init tag clauses => do
    let init ← walkHeader? region init
    let tag ← walkExpr? region tag
    let clauses ← walkClauses region true clauses
    return .switch info init tag clauses
  | .block info body => do return .block info (← walkBlock body)
  | .go info call => do
    let call ← walkExpr .deferred .single call
    return .go info call.one
  | .defer info call => do
    let call ← walkExpr .deferred .single call
    return .defer info call.one
  | .branch info kind => return .branch info kind

def walkHeader? (region : Region) : Option Stmt → WalkM σ ε (Option Stmt)
  | none => return none
  | some s => do return some (← walkStmt region .header s)

def walkOther? (region : Region) : Option Stmt → WalkM σ ε (Option Stmt)
  | none => return none
  | some s => do return some (← walkStmt region .other s)

/-- The clauses of a `switch`. Only the `first` value of all is sure to be
evaluated. -/
def walkClauses (region : Region) (first : Bool) :
    List CaseClause → WalkM σ ε (List CaseClause)
  | [] => return []
  | .case info values body :: cs => do
    let values ← walkValues region first values
    let body ← walkBlock body
    return .case info values body :: (← walkClauses region (first && values.isEmpty) cs)
  | .default info body :: cs => do
    let body ← walkBlock body
    return .default info body :: (← walkClauses region first cs)

def walkValues (region : Region) (first : Bool) : List Expr → WalkM σ ε (List Expr)
  | [] => return []
  | x :: xs => do
    let x ← walkExpr (if first then region else .laterCase) .single x
    return x.one :: (← walkValues region false xs)

def walkDecl (region : Region) : Decl → WalkM σ ε Decl
  | .types specs => return .types specs
  | .vars specs => do return .vars (← walkSpecs region specs)
  | .consts specs => do return .consts (← walkSpecs region specs)

def walkSpecs (region : Region) : List ValueSpec → WalkM σ ε (List ValueSpec)
  | [] => return []
  | ⟨info, names, ty, values⟩ :: specs => do
    let values ← walkList region (.list info.id .assigned) values
    return ⟨info, names, ty, values⟩ :: (← walkSpecs region specs)

end

def walkFunc (f : FuncDecl) : WalkM σ ε FuncDecl :=
  match f.body with
  | none => return f
  | some body => do
    ask () (v.enterFunc f.sig)
    let body ← walkBlock v body
    ask () v.exitFunc
    return { f with body := some body }

def walkTop : TopDecl → WalkM σ ε TopDecl
  | .func f => do return .func (← walkFunc v f)
  | .decl d => do return .decl (← walkDecl v .packageLevel d)

def walkFile (file : File) : WalkM σ ε File := do
  return { file with decls := ← file.decls.mapM (walkTop v) }

end

end CheckHandle
