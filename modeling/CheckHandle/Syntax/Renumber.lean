import CheckHandle.Syntax.Basic

/-!
# Fresh copies

A copy of a tree in which every node has a fresh identity, so that the copy
shares none with what it was made from. A node draws before its parts.
-/

namespace CheckHandle

/-- The same span under a fresh identity. -/
def Info.renumber (info : Info) : Fresh Info := do
  return { info with id := ← freshId }

def Ident.renumber (i : Ident) : Fresh Ident := do
  return { i with info := ← i.info.renumber }

mutual

def TypeExpr.renumber : TypeExpr → Fresh TypeExpr
  | .name info package name => do return .name (← info.renumber) package name
  | .pointer info elem => do return .pointer (← info.renumber) (← elem.renumber)
  | .slice info elem => do return .slice (← info.renumber) (← elem.renumber)
  | .array info len elem => do
    return .array (← info.renumber) (← renumberExpr? len) (← elem.renumber)
  | .map info key value => do return .map (← info.renumber) (← key.renumber) (← value.renumber)
  | .func info sig => do return .func (← info.renumber) (← sig.renumber)
  | .struct info fields => do return .struct (← info.renumber) (← renumberFields fields)
  | .interface info elems => do return .interface (← info.renumber) (← renumberFields elems)

def renumberType? : Option TypeExpr → Fresh (Option TypeExpr)
  | none => return none
  | some ty => do return some (← ty.renumber)

def Field.renumber : Field → Fresh Field
  | ⟨info, names, ty, variadic, tag⟩ => do
    let info ← info.renumber
    let names ← names.mapM Ident.renumber
    return ⟨info, names, ← ty.renumber, variadic, tag⟩

def renumberFields : List Field → Fresh (List Field)
  | [] => return []
  | f :: fs => do return (← f.renumber) :: (← renumberFields fs)

def Signature.renumber : Signature → Fresh Signature
  | ⟨params, results⟩ => do return ⟨← renumberFields params, ← renumberFields results⟩

def Expr.renumber : Expr → Fresh Expr
  | .ident info name => do return .ident (← info.renumber) name
  | .lit info kind text => do return .lit (← info.renumber) kind text
  | .composite info ty elts => do
    return .composite (← info.renumber) (← renumberType? ty) (← renumberExprs elts)
  | .funcLit info sig body => do
    return .funcLit (← info.renumber) (← sig.renumber) (← body.renumber)
  | .paren info x => do return .paren (← info.renumber) (← x.renumber)
  | .selector info x sel => do
    return .selector (← info.renumber) (← x.renumber) (← sel.renumber)
  | .index info x index => do
    return .index (← info.renumber) (← x.renumber) (← index.renumber)
  | .slice info x lo hi max => do
    return .slice (← info.renumber) (← x.renumber) (← renumberExpr? lo) (← renumberExpr? hi)
      (← renumberExpr? max)
  | .typeAssert info x ty => do
    return .typeAssert (← info.renumber) (← x.renumber) (← ty.renumber)
  | .call info fn args ellipsis => do
    return .call (← info.renumber) (← fn.renumber) (← renumberExprs args) ellipsis
  | .unary info op x => do return .unary (← info.renumber) op (← x.renumber)
  | .binary info op x y => do return .binary (← info.renumber) op (← x.renumber) (← y.renumber)
  | .keyValue info key value => do
    return .keyValue (← info.renumber) (← key.renumber) (← value.renumber)
  | .type info ty => do return .type (← info.renumber) (← ty.renumber)

def renumberExpr? : Option Expr → Fresh (Option Expr)
  | none => return none
  | some x => do return some (← x.renumber)

def renumberExprs : List Expr → Fresh (List Expr)
  | [] => return []
  | x :: xs => do return (← x.renumber) :: (← renumberExprs xs)

def Block.renumber : Block → Fresh Block
  | ⟨info, stmts⟩ => do return ⟨← info.renumber, ← renumberStmts stmts⟩

def Stmt.renumber : Stmt → Fresh Stmt
  | .expr info x => do return .expr (← info.renumber) (← x.renumber)
  | .assign info lhs op rhs => do
    return .assign (← info.renumber) (← renumberExprs lhs) op (← renumberExprs rhs)
  | .incDec info x increment => do return .incDec (← info.renumber) (← x.renumber) increment
  | .decl info d => do return .decl (← info.renumber) (← d.renumber)
  | .ret info results => do return .ret (← info.renumber) (← renumberExprs results)
  | .cond info init test body other => do
    return .cond (← info.renumber) (← renumberStmt? init) (← test.renumber) (← body.renumber)
      (← renumberStmt? other)
  | .loop info init test post body => do
    return .loop (← info.renumber) (← renumberStmt? init) (← renumberExpr? test)
      (← renumberStmt? post) (← body.renumber)
  | .range info key value define x body => do
    return .range (← info.renumber) (← renumberExpr? key) (← renumberExpr? value) define
      (← x.renumber) (← body.renumber)
  | .switch info init tag clauses => do
    return .switch (← info.renumber) (← renumberStmt? init) (← renumberExpr? tag)
      (← renumberClauses clauses)
  | .block info body => do return .block (← info.renumber) (← body.renumber)
  | .go info call => do return .go (← info.renumber) (← call.renumber)
  | .defer info call => do return .defer (← info.renumber) (← call.renumber)
  | .branch info kind => do return .branch (← info.renumber) kind

def renumberStmt? : Option Stmt → Fresh (Option Stmt)
  | none => return none
  | some s => do return some (← s.renumber)

def renumberStmts : List Stmt → Fresh (List Stmt)
  | [] => return []
  | s :: ss => do return (← s.renumber) :: (← renumberStmts ss)

def renumberClauses : List CaseClause → Fresh (List CaseClause)
  | [] => return []
  | .case info values body :: cs => do
    let clause : CaseClause :=
      .case (← info.renumber) (← renumberExprs values) (← body.renumber)
    return clause :: (← renumberClauses cs)
  | .default info body :: cs => do
    let clause : CaseClause := .default (← info.renumber) (← body.renumber)
    return clause :: (← renumberClauses cs)

def Decl.renumber : Decl → Fresh Decl
  | .types specs => do return .types (← renumberTypeSpecs specs)
  | .vars specs => do return .vars (← renumberValueSpecs specs)
  | .consts specs => do return .consts (← renumberValueSpecs specs)

def renumberTypeSpecs : List TypeSpec → Fresh (List TypeSpec)
  | [] => return []
  | ⟨info, name, isAlias, ty⟩ :: specs => do
    let spec : TypeSpec := ⟨← info.renumber, ← name.renumber, isAlias, ← ty.renumber⟩
    return spec :: (← renumberTypeSpecs specs)

def renumberValueSpecs : List ValueSpec → Fresh (List ValueSpec)
  | [] => return []
  | ⟨info, names, ty, values⟩ :: specs => do
    let info ← info.renumber
    let names ← names.mapM Ident.renumber
    let spec : ValueSpec := ⟨info, names, ← renumberType? ty, ← renumberExprs values⟩
    return spec :: (← renumberValueSpecs specs)

end

end CheckHandle
