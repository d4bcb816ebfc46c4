import CheckHandle.Checker.Operand

/-!
# Typing expressions and statements

Whatever cannot be typed is left out of the record, perhaps with a diagnostic,
and the pass goes on. Parts are visited in the order in which they are written;
a type that is expected, such as that of a parameter, is passed down as a hint
for literals without a type.
-/

namespace CheckHandle

/-- Records the type of an operand for its node. -/
def recordOperand (id : NodeId) : Option Operand → CheckM Unit
  | some (.value ty) => modify (·.recordType id ty)
  | some (.type ty) => modify (·.recordType id ty)
  | _ => return

/-- The type of a literal that has none written, and whether its value is an
address: in a list of pointers the operator is left out. -/
def hintedLiteral : Option Ty → Option Ty × Bool
  | some (.pointer inner) => (some inner, true)
  | ty => (ty, false)

mutual

def checkOperand (hint : Option Ty) (x : Expr) : CheckM (Option Operand) := do
  let operand ← match x with
    | .ident info name => useIdent info name
    | .lit _ kind _ => pure (some (.value (.basic kind.basic)))
    | .composite _ none elts => do
      let (ty, addr) := hintedLiteral hint
      checkElements (ty.bind (← get).info.underlying) 0 elts
      pure (ty.map fun t => .value (if addr then .pointer t else t))
    | .composite _ (some written) elts => do
      let ty ← resolveType written
      checkElements (ty.bind (← get).info.underlying) 0 elts
      pure (ty.map .value)
    | .funcLit _ sig body => do
      let ty ← resolveSignature sig
      modify Checker.pushScope
      declareParams sig.params
      declareParams sig.results
      checkBlock body
      modify Checker.popScope
      pure (ty.map fun sig => .value (.func sig))
    | .paren _ x => checkOperand hint x
    | .selector _ x sel => do
      let base ← checkOperand none x
      selectFrom base sel
    | .index _ x index => do
      let base ← checkOperand none x
      let _ ← checkOperand none index
      let info := (← get).info
      pure (((base.bind Operand.value?).bind info.elementOf).map .value)
    | .slice _ x lo hi max => do
      let base ← checkOperand none x
      checkExpr? lo
      checkExpr? hi
      checkExpr? max
      let info := (← get).info
      pure (((base.bind Operand.value?).bind info.sliceOf).map .value)
    | .typeAssert _ x ty => do
      let _ ← checkOperand none x
      pure ((← resolveType ty).map .value)
    | .call _ fn args _ =>
      if fn.ident? == some checkFunc then do
        match ← checkExprs [] args with
        | [ty] => pure (ty.map .value)
        | _ => pure none
      else do
        match ← checkOperand none fn with
        | some (.type t) => do
          let _ ← checkExprs [] args
          pure (some (.value t))
        | some (.builtin name) =>
          if name == "make" || name == "new" then
            match args with
            | [] => pure none
            | a :: rest => do
              let first ← checkOperand none a
              let _ ← checkExprs [] rest
              match first with
              | some (.type t) => pure (some (.value (if name == "new" then .pointer t else t)))
              | _ => pure none
          else do
            let types ← checkExprs [] args
            pure ((builtinResult name (types.head?.bind id)).map .value)
        | some (.value t) => do
          match (← get).info.underlying t with
          | some (.func sig) =>
            let _ ← checkExprs sig.params args
            pure (some (.value sig.callResult))
          | _ =>
            let _ ← checkExprs [] args
            modify (·.diagnose fn.info.span ("cannot call non-function of type " ++ t.text))
            pure none
        | _ => do
          let _ ← checkExprs [] args
          pure none
    | .unary _ op x => do
      let inner ← checkOperand hint x
      let info := (← get).info
      pure (inner.bind (unaryOperand info op))
    | .binary _ op x y => do
      let left ← checkOperand none x
      let right ← checkOperand none y
      pure ((binaryType op (left.bind Operand.value?) (right.bind Operand.value?)).map .value)
    | .keyValue _ key value => do
      let _ ← checkOperand none key
      let _ ← checkOperand none value
      pure none
    | .type _ ty => do pure ((← resolveType ty).map .type)
  recordOperand x.info.id operand
  return operand

def checkExpr? : Option Expr → CheckM Unit
  | none => return
  | some x => do
    let _ ← checkOperand none x
    return

/-- The types of values, each with its hint while there are hints. -/
def checkExprs (hints : List Ty) : List Expr → CheckM (List (Option Ty))
  | [] => return []
  | x :: xs => do
    let operand ← checkOperand hints.head? x
    return operand.bind Operand.value? :: (← checkExprs hints.tail xs)

/-- The elements of a literal from number `i` on. -/
def checkElements (under : Option Ty) (i : Nat) : List Expr → CheckM Unit
  | [] => return
  | .keyValue _ key value :: rest => do
    match keyHint under key with
    | some hint => let _ ← checkOperand hint key
    | none => pure ()
    let _ ← checkOperand (keyedHint under i key) value
    checkElements under (i + 1) rest
  | value :: rest => do
    let _ ← checkOperand (elementHint under i) value
    checkElements under (i + 1) rest

def checkBlock : Block → CheckM Unit
  | ⟨_, stmts⟩ => do
    modify Checker.pushScope
    checkStmts stmts
    modify Checker.popScope

def checkStmts : List Stmt → CheckM Unit
  | [] => return
  | s :: ss => do
    checkStmt s
    checkStmts ss

def checkStmt : Stmt → CheckM Unit
  | .expr _ x | .go _ x | .defer _ x | .incDec _ x _ => do
    let _ ← checkOperand none x
  | .assign info lhs .define rhs => do
    let types ← checkExprs [] rhs
    let types ← assignedTypes rhs types lhs.length info.span
    defineTargets types lhs
  | .assign _ lhs _ rhs => do
    checkTargets lhs
    let _ ← checkExprs [] rhs
  | .decl _ (.types specs) => specs.forM (declareType true)
  | .decl _ (.vars specs) => checkValueSpecs false true specs
  | .decl _ (.consts specs) => checkValueSpecs true true specs
  | .ret _ results => do
    let _ ← checkExprs [] results
  | .cond _ init test body other => do
    modify Checker.pushScope
    checkStmt? init
    let _ ← checkOperand none test
    checkBlock body
    checkStmt? other
    modify Checker.popScope
  | .loop _ init test post body => do
    modify Checker.pushScope
    checkStmt? init
    checkExpr? test
    checkStmt? post
    checkBlock body
    modify Checker.popScope
  | .range _ key value define x body => do
    let operand ← checkOperand none x
    let info := (← get).info
    let (keyType, valueType) := match operand.bind Operand.value? with
      | some t => info.rangeTypes t
      | none => (none, none)
    modify Checker.pushScope
    if define then
      defineTarget? keyType key
      defineTarget? valueType value
    else
      checkTarget? key
      checkTarget? value
    checkBlock body
    modify Checker.popScope
  | .switch _ init tag clauses => do
    modify Checker.pushScope
    checkStmt? init
    checkExpr? tag
    checkClauses clauses
    modify Checker.popScope
  | .block _ body => checkBlock body
  | .branch .. => return

def checkStmt? : Option Stmt → CheckM Unit
  | none => return
  | some s => checkStmt s

def checkClauses : List CaseClause → CheckM Unit
  | [] => return
  | .case _ values body :: cs => do
    let _ ← checkExprs [] values
    checkBlock body
    checkClauses cs
  | .default _ body :: cs => do
    checkBlock body
    checkClauses cs

/-- Targets of a definition, with the types of their values. -/
def defineTargets (types : List (Option Ty)) : List Expr → CheckM Unit
  | [] => return
  | .ident info name :: targets => do
    defineName info name (types.head?.bind id)
    defineTargets types.tail targets
  | x :: targets => do
    let _ ← checkOperand none x
    defineTargets types.tail targets

def defineTarget? (ty : Option Ty) : Option Expr → CheckM Unit
  | none => return
  | some (.ident info name) => defineName info name ty
  | some x => do
    let _ ← checkOperand none x

/-- Targets of an assignment; a blank one takes any value. -/
def checkTargets : List Expr → CheckM Unit
  | [] => return
  | x :: targets => do
    if x.ident? != some "_" then
      let _ ← checkOperand none x
    checkTargets targets

def checkTarget? : Option Expr → CheckM Unit
  | none => return
  | some x => do
    if x.ident? != some "_" then
      let _ ← checkOperand none x

def checkValueSpecs (constant isLocal : Bool) : List ValueSpec → CheckM Unit
  | [] => return
  | ⟨info, names, written, values⟩ :: specs => do
    let declared ← match written with
      | some ty => resolveType ty
      | none => pure none
    let types ← checkExprs [] values
    let types ← if values.isEmpty then pure (names.map fun _ => none)
      else assignedTypes values types names.length info.span
    declareValues constant isLocal declared names types
    checkValueSpecs constant isLocal specs

end

end CheckHandle
