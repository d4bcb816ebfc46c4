import CheckHandle.Grammar.Match
import CheckHandle.Syntax.Basic

/-!
# From parse trees to syntax trees

Identities are drawn from the parts to the whole, in source order. The parts of a
construct are told by their rules; a part that the grammar does not allow there,
or one that is not there, is an internal fault. Three faults are the user's:
parameters of which only some are named, a literal whose type is not a name, and
a range clause with more than two variables.
-/

namespace CheckHandle

open Text

/-- Building draws identities and may fail. -/
abbrev Build := StateT NodeId (Except Fault)

namespace Build

def fail {α : Type} (message : String) (span : Span) : Build α :=
  throw ⟨.unparsable message, span, false⟩

/-- A part that the grammar guarantees is not there. -/
def missing {α : Type} (what : String) (span : Span) : Build α :=
  throw ⟨.unparsable ("missing " ++ what), span, true⟩

/-- A part that the grammar does not allow here. -/
def unexpected {α : Type} (t : Tree) (context : String) : Build α :=
  throw ⟨.unparsable ("unexpected " ++ t.rule.name ++ " in " ++ context), t.span, true⟩

/-- Runs a computation that only draws identities. -/
def draw {α : Type} (m : Fresh α) : Build α := fun next => .ok (m next)

/-- A fresh identity for a node read from `span`. -/
def info (span : Span) : Build Info := do
  return ⟨← draw freshId, span⟩

end Build

namespace Tree

/-- The text of a match without blanks around it. -/
def word (t : Tree) : String :=
  String.ofList (trim t.text)

/-- The text of a match. -/
def string (t : Tree) : String :=
  String.ofList t.text

end Tree

open Build

/-- The span of a match at `start` that covers `text`. -/
def matchSpan (start : Nat) (text : List Char) : Span :=
  ⟨start, start + byteLength (trimEnd text)⟩

def buildIdent (t : Tree) : Build Ident := do
  return ⟨← info t.span, t.word⟩

/-- An entry of a parameter list before entries are grouped. -/
structure RawParam where
  name : Option Ident
  variadic : Bool
  ty : TypeExpr
  span : Span

/-- Groups entries: a plain name without a type is one more name for the type of
the next entry that has one. `pending` holds such names, latest first. -/
def groupParams (list : Span) (pending : List Ident) : List RawParam → Build (List Field)
  | [] => if pending.isEmpty then return [] else fail "mixed named and unnamed parameters" list
  | p :: ps =>
    match p.name with
    | some name => do
      let field : Field := ⟨← info p.span, (name :: pending).reverse, p.ty, p.variadic, none⟩
      return field :: (← groupParams list [] ps)
    | none =>
      match p.ty, p.variadic with
      | .name tyInfo none name, false => groupParams list (⟨tyInfo, name⟩ :: pending) ps
      | _, _ => fail "mixed named and unnamed parameters" p.span

/-- The fields of a parameter list. -/
def fieldsOfParams (list : Span) (raw : List RawParam) : Build (List Field) :=
  if raw.all fun p => p.name.isNone then
    raw.mapM fun p => do return ⟨← info p.span, [], p.ty, p.variadic, none⟩
  else groupParams list [] raw

/-- Applies the waiting operators that bind at least as strongly as `limit` to
their right operand `y`. -/
def reduceBinary (limit : Nat) (y : Expr) :
    List (Expr × BinaryOp) → Fresh (Expr × List (Expr × BinaryOp))
  | [] => return (y, [])
  | (x, op) :: waiting =>
    if limit ≤ op.precedence then do
      let id ← freshId
      let span : Span := ⟨x.info.span.start, y.info.span.stop⟩
      reduceBinary limit (.binary ⟨id, span⟩ op x y) waiting
    else return (y, (x, op) :: waiting)

/-- Groups a flat sequence of operands by the strength of its operators;
operators of equal strength group to the left. -/
def foldBinary (waiting : List (Expr × BinaryOp)) (y : Expr) :
    List (BinaryOp × Expr) → Fresh Expr
  | [] => do return (← reduceBinary 0 y waiting).1
  | (op, z) :: rest => do
    let (y, waiting) ← reduceBinary op.precedence y waiting
    foldBinary ((y, op) :: waiting) z rest

/-- Puts prefixed operators, the outermost first, around an operand. -/
def applyUnary (x : Expr) : List (UnaryOp × Nat) → Fresh Expr
  | [] => return x
  | (op, start) :: ops => do
    let x ← applyUnary x ops
    return .unary ⟨← freshId, ⟨start, x.info.span.stop⟩⟩ op x

/-- The type that the operand in front of a literal body names. -/
def literalTypeOf (x : Expr) : Build TypeExpr :=
  match x with
  | .ident here name => do return .name (← info here.span) none name
  | .selector here (.ident _ package) sel => do
    return .name (← info here.span) (some package) sel.name
  | .type _ ty => return ty
  | _ => fail "invalid composite literal type" x.info.span

/-- The import path inside its quotes. -/
def unquote (text : List Char) : String :=
  let isQuote := fun c => c == '"' || c == '\x60'
  String.ofList ((text.dropWhile isQuote).reverse.dropWhile isQuote).reverse

def assignOpOf (t : Tree) : Build AssignOp :=
  let s := t.word
  if s == "=" then return .assign
  else if s == ":=" then return .define
  else
    match BinaryOp.ofText? (String.ofList (s.toList.reverse.dropWhile (· == '=')).reverse) with
    | some op => return .compound op
    | none => missing "assignment operator" t.span

def litKind? : Rule → Option LitKind
  | .intLit => some .int
  | .floatLit => some .float
  | .imagLit => some .imag
  | .runeLit => some .rune
  | .stringLit => some .string
  | _ => none

/-- The parts of a `for` clause. -/
structure ForParts where
  init : Option Stmt := none
  test : Option Expr := none
  post : Option Stmt := none

/-- The parts of a range clause. -/
structure RangeParts where
  key : Option Expr
  value : Option Expr
  define : Bool
  x : Expr

/-- The bounds of a slice expression. -/
structure SliceBounds where
  lo : Option Expr := none
  hi : Option Expr := none
  max : Option Expr := none

mutual

def buildType : Tree → Build TypeExpr
  | .node rule start text children =>
    let span := matchSpan start text
    match rule with
    | .typeExpr | .typeOnly | .typeOperand =>
      match children with
      | t :: _ => buildType t
      | [] => missing "type" span
    | .typeName =>
      match children.map Tree.string with
      | [name] => do return .name (← info span) none name
      | [package, name] => do return .name (← info span) (some package) name
      | _ => missing "type name" span
    | .pointerType =>
      match children with
      | t :: _ => do
        let elem ← buildType t
        return .pointer (← info span) elem
      | [] => missing "type" span
    | .sliceType =>
      match children with
      | t :: _ => do
        let elem ← buildType t
        return .slice (← info span) elem
      | [] => missing "type" span
    | .arrayType =>
      match children with
      | [.node .ellipsis _ _ _, t] => do
        let elem ← buildType t
        return .array (← info span) none elem
      | [n, t] => do
        let len ← buildExpr n
        let elem ← buildType t
        return .array (← info span) (some len) elem
      | _ => missing "array element" span
    | .mapType =>
      match children with
      | [k, v] => do
        let key ← buildType k
        let value ← buildType v
        return .map (← info span) key value
      | _ => missing "map key" span
    | .funcType =>
      match children with
      | s :: _ => do
        let sig ← buildSignature s
        return .func (← info span) sig
      | [] => missing "signature" span
    | .structType => do
      let fields ← buildFields children
      return .struct (← info span) fields
    | .interfaceType => do
      let elems ← buildMembers children
      return .interface (← info span) elems
    | _ => unexpected (.node rule start text []) "type"

def buildFields : List Tree → Build (List Field)
  | [] => return []
  | t :: ts => do
    let field ← buildField t
    return field :: (← buildFields ts)

/-- A line of a struct type. -/
def buildField : Tree → Build Field
  | .node _ start text children => buildFieldFrom (matchSpan start text) [] none none children

def buildFieldFrom (span : Span) (names : List Ident) (ty : Option TypeExpr) (tag : Option String) :
    List Tree → Build Field
  | [] =>
    match ty with
    | some ty => do return ⟨← info span, names, ty, false, tag⟩
    | none => missing "field type" span
  | .node .embeddedField here whole [] :: _ => missing "type" (matchSpan here whole)
  | .node .embeddedField here whole (t :: _) :: ts => do
    let named ← buildType t
    let ty ← if whole.head? == some '*' then
        do pure (.pointer (← info (matchSpan here whole)) named)
      else pure named
    buildFieldFrom span names (some ty) tag ts
  | t :: ts =>
    match t.rule with
    | .identList => do
      let names ← t.children.mapM buildIdent
      buildFieldFrom span names ty tag ts
    | .typeExpr => do
      let ty ← buildType t
      buildFieldFrom span names (some ty) tag ts
    | .stringLit => buildFieldFrom span names ty (some t.string) ts
    | _ => unexpected t "struct field"

def buildMembers : List Tree → Build (List Field)
  | [] => return []
  | t :: ts => do
    let field ← buildMember t
    return field :: (← buildMembers ts)

/-- A line of an interface type. -/
def buildMember : Tree → Build Field
  | .node _ start text children =>
    let span := matchSpan start text
    match children with
    | .node .methodSpec _ _ [name, sig] :: _ => do
      let name ← buildIdent name
      let sigSpan := sig.span
      let sig ← buildSignature sig
      let ty : TypeExpr := .func (← info sigSpan) sig
      return ⟨← info span, [name], ty, false, none⟩
    | t :: _ => do
      let ty ← buildType t
      return ⟨← info span, [], ty, false, none⟩
    | [] => missing "interface element" span

def buildParams : Tree → Build (List Field)
  | .node _ start text children => do
    let raw ← buildRawParams children
    fieldsOfParams (matchSpan start text) raw

def buildRawParams : List Tree → Build (List RawParam)
  | [] => return []
  | t :: ts => do
    let p ← buildRawParam t
    return p :: (← buildRawParams ts)

def buildRawParam : Tree → Build RawParam
  | .node _ start text children => buildParamFrom (matchSpan start text) none false none children

def buildParamFrom (span : Span) (name : Option Ident) (variadic : Bool) (ty : Option TypeExpr) :
    List Tree → Build RawParam
  | [] =>
    match ty with
    | some ty => return ⟨name, variadic, ty, span⟩
    | none => missing "parameter type" span
  | t :: ts =>
    match t.rule with
    | .ident => do
      let name ← buildIdent t
      buildParamFrom span (some name) variadic ty ts
    | .ellipsis => buildParamFrom span name true ty ts
    | .typeExpr => do
      let ty ← buildType t
      buildParamFrom span name variadic (some ty) ts
    | _ => unexpected t "parameter"

def buildSignature : Tree → Build Signature
  | .node _ _ _ children => buildSignatureFrom [] [] children

def buildSignatureFrom (params results : List Field) : List Tree → Build Signature
  | [] => return ⟨params, results⟩
  | .node .results here whole [] :: _ => missing "results" (matchSpan here whole)
  | .node .results _ _ (.node .params here list entries :: _) :: ts => do
    let raw ← buildRawParams entries
    let results ← fieldsOfParams (matchSpan here list) raw
    buildSignatureFrom params results ts
  | .node .results _ _ (t :: _) :: ts => do
    let ty ← buildType t
    let field : Field := ⟨← info t.span, [], ty, false, none⟩
    buildSignatureFrom params [field] ts
  | t :: ts =>
    match t.rule with
    | .params => do
      let params ← buildParams t
      buildSignatureFrom params results ts
    | _ => unexpected t "signature"

def buildExprs : List Tree → Build (List Expr)
  | [] => return []
  | t :: ts => do
    let x ← buildExpr t
    return x :: (← buildExprs ts)

/-- The expressions inside a list rule. -/
def buildExprList : Tree → Build (List Expr)
  | .node _ _ _ children => buildExprs children

def buildExpr : Tree → Build Expr
  | .node rule start text children =>
    let span := matchSpan start text
    match rule with
    | .expr | .headerExpr =>
      match children with
      | t :: ts => do
        let first ← buildExpr t
        let rest ← buildOperations span ts
        draw (foldBinary [] first rest)
      | [] => missing "operand" span
    | .unaryExpr | .headerUnaryExpr => buildUnary span [] children
    | .primaryExpr | .headerPrimaryExpr =>
      match children with
      | t :: ts => do
        let x ← buildExpr t
        buildSuffixes x ts
      | [] => missing "operand" span
    | .ident => do return .ident (← info span) (String.ofList text)
    | .parenExpr =>
      match children with
      | t :: _ => do
        let x ← buildExpr t
        return .paren (← info span) x
      | [] => missing "parenthesized expression" span
    | .compositeLit =>
      match children with
      | [t, b] => do
        let ty ← buildType t
        let elts ← buildLitBody b
        return .composite (← info span) (some ty) elts
      | _ => missing "literal body" span
    | .funcLit =>
      match children with
      | [s, b] => do
        let sig ← buildSignature s
        let body ← buildBlock b
        return .funcLit (← info span) sig body
      | _ => missing "function body" span
    | .typeOperand =>
      match children with
      | t :: _ => do
        let ty ← buildType t
        return .type (← info span) ty
      | [] => missing "type" span
    | .litBody => do
      let elts ← buildElements children
      return .composite (← info span) none elts
    | rule =>
      match litKind? rule with
      | some kind => do return .lit (← info span) kind (String.ofList text)
      | none => unexpected (.node rule start text []) "expression"

/-- Operators and right operands after the first operand. -/
def buildOperations (span : Span) : List Tree → Build (List (BinaryOp × Expr))
  | [] => return []
  | [op] => missing "right operand" op.span
  | op :: t :: ts =>
    match BinaryOp.ofText? op.word with
    | none => missing "binary operator" op.span
    | some op => do
      let x ← buildExpr t
      return (op, x) :: (← buildOperations span ts)

/-- Prefixed operators, collected latest first, and the operand after them. -/
def buildUnary (span : Span) (ops : List (UnaryOp × Nat)) : List Tree → Build Expr
  | [] => missing "operand" span
  | .node .unaryOp start text _ :: ts =>
    buildUnary span ((UnaryOp.ofText (String.ofList (trim text)), start) :: ops) ts
  | t :: _ => do
    let x ← buildExpr t
    draw (applyUnary x ops.reverse)

def buildSuffixes (x : Expr) : List Tree → Build Expr
  | [] => return x
  | t :: ts => do
    let x ← buildSuffix x t
    buildSuffixes x ts

/-- What follows an operand: a selector, an index, a call or a literal body. -/
def buildSuffix (x : Expr) : Tree → Build Expr
  | .node rule start text children =>
    let stop := (matchSpan start text).stop
    let span : Span := ⟨x.info.span.start, stop⟩
    match rule with
    | .selectorSuffix =>
      match children with
      | t :: _ => do
        let sel ← buildIdent t
        return .selector (← info span) x sel
      | [] => missing "selector" span
    | .typeAssertSuffix =>
      match children with
      | t :: _ => do
        let ty ← buildType t
        return .typeAssert (← info span) x ty
      | [] => missing "type" span
    | .indexSuffix =>
      match children with
      | t :: _ => do
        let index ← buildExpr t
        return .index (← info span) x index
      | [] => missing "index" span
    | .sliceSuffix => do
      let bounds ← buildBounds {} children
      return .slice (← info span) x bounds.lo bounds.hi bounds.max
    | .callSuffix => do
      let (args, ellipsis) ← buildArgs children
      return .call (← info span) x args ellipsis
    | .litSuffix =>
      match children with
      | b :: _ => do
        let ty ← literalTypeOf x
        let elts ← buildLitBody b
        return .composite (← info span) (some ty) elts
      | [] => missing "literal body" span
    | rule => unexpected (.node rule start text []) "expression suffix"

def buildBounds (bounds : SliceBounds) : List Tree → Build SliceBounds
  | [] => return bounds
  | .node .sliceLo _ _ (t :: _) :: ts => do
    let x ← buildExpr t
    buildBounds { bounds with lo := some x } ts
  | .node .sliceHi _ _ (t :: _) :: ts => do
    let x ← buildExpr t
    buildBounds { bounds with hi := some x } ts
  | .node .sliceMax _ _ (t :: _) :: ts => do
    let x ← buildExpr t
    buildBounds { bounds with max := some x } ts
  | t :: _ => unexpected t "slice expression"

/-- The arguments of a call, and whether the last is spread. -/
def buildArgs : List Tree → Build (List Expr × Bool)
  | [] => return ([], false)
  | .node .ellipsis _ _ _ :: _ => return ([], true)
  | t :: ts => do
    let x ← buildExpr t
    let (xs, ellipsis) ← buildArgs ts
    return (x :: xs, ellipsis)

def buildLitBody : Tree → Build (List Expr)
  | .node _ _ _ children => buildElements children

def buildElements : List Tree → Build (List Expr)
  | [] => return []
  | t :: ts => do
    let x ← buildElement t
    return x :: (← buildElements ts)

/-- A value of a literal, with or without a key. -/
def buildElement : Tree → Build Expr
  | .node _ start text children =>
    let span := matchSpan start text
    match children with
    | [t] => buildExpr t
    | [k, v] => do
      let key ← buildExpr k
      let value ← buildExpr v
      return .keyValue (← info span) key value
    | _ => missing "composite literal element" span

def buildBlock : Tree → Build Block
  | .node _ start text children => do
    let stmts ← buildStmts children
    return ⟨← info (matchSpan start text), stmts⟩

def buildStmts : List Tree → Build (List Stmt)
  | [] => return []
  | t :: ts => do
    let s ← buildStmt t
    return s :: (← buildStmts ts)

def buildStmt : Tree → Build Stmt
  | .node rule start text children =>
    let span := matchSpan start text
    match rule with
    | .returnStmt =>
      match children with
      | [] => do return .ret (← info span) []
      | t :: _ => do
        let results ← buildExprList t
        return .ret (← info span) results
    | .ifStmt => buildCondFrom span none none none none children
    | .forStmt => buildLoopFrom span {} none none children
    | .switchStmt => buildSwitchFrom span none none [] children
    | .goStmt =>
      match children with
      | t :: _ => do
        let x ← buildExpr t
        return .go (← info span) x
      | [] => missing "expression" span
    | .deferStmt =>
      match children with
      | t :: _ => do
        let x ← buildExpr t
        return .defer (← info span) x
      | [] => missing "expression" span
    | .branchStmt =>
      let word := String.ofList (trim text)
      let kind : BranchKind :=
        if word == "break" then .break
        else if word == "continue" then .continue
        else .fallthrough
      do return .branch (← info span) kind
    | .declStmt =>
      match children with
      | t :: _ => do
        let d ← buildDecl t
        return .decl (← info span) d
      | [] => missing "declaration" span
    | .block => do
      let stmts ← buildStmts children
      let body : Block := ⟨← info span, stmts⟩
      return .block (← info span) body
    | .assignStmt | .headerAssignStmt =>
      match children with
      | [l, op, r] => do
        let lhs ← buildExprList l
        let op ← assignOpOf op
        let rhs ← buildExprList r
        return .assign (← info span) lhs op rhs
      | _ => missing "assignment target" span
    | .incdecStmt | .headerIncdecStmt =>
      match children with
      | [t, op] => do
        let x ← buildExpr t
        return .incDec (← info span) x (op.word == "++")
      | _ => missing "increment operator" span
    | .exprStmt | .headerExprStmt =>
      match children with
      | t :: _ => do
        let x ← buildExpr t
        return .expr (← info span) x
      | [] => missing "expression" span
    | rule => unexpected (.node rule start text []) "statement"

def buildCondFrom (span : Span) (init : Option Stmt) (test : Option Expr) (body : Option Block)
    (other : Option Stmt) : List Tree → Build Stmt
  | [] =>
    match test, body with
    | none, _ => missing "if condition" span
    | _, none => missing "if body" span
    | some test, some body => do return .cond (← info span) init test body other
  | .node .ifInit here whole [] :: _ => missing "statement" (matchSpan here whole)
  | .node .ifInit _ _ (t :: _) :: ts => do
    let init ← buildStmt t
    buildCondFrom span (some init) test body other ts
  | t :: ts =>
    match t.rule, body with
    | .headerExpr, _ => do
      let test ← buildExpr t
      buildCondFrom span init (some test) body other ts
    | .block, none => do
      let body ← buildBlock t
      buildCondFrom span init test (some body) other ts
    | .block, some _ | .ifStmt, _ => do
      let other ← buildStmt t
      buildCondFrom span init test body (some other) ts
    | _, _ => unexpected t "if statement"

def buildLoopFrom (span : Span) (parts : ForParts) (range : Option RangeParts) (body : Option Block) :
    List Tree → Build Stmt
  | [] =>
    match body, range with
    | none, _ => missing "loop body" span
    | some body, some r => do return .range (← info span) r.key r.value r.define r.x body
    | some body, none => do return .loop (← info span) parts.init parts.test parts.post body
  | .node .rangeClause here whole children :: ts => do
    let range ← buildRange (matchSpan here whole) [] false none children
    buildLoopFrom span parts (some range) body ts
  | .node .forClause _ _ children :: ts => do
    let parts ← buildForParts parts children
    buildLoopFrom span parts range body ts
  | .node .forCond here whole [] :: _ => missing "expression" (matchSpan here whole)
  | .node .forCond _ _ (t :: _) :: ts => do
    let test ← buildExpr t
    buildLoopFrom span { parts with test := some test } range body ts
  | t :: ts =>
    match t.rule with
    | .block => do
      let body ← buildBlock t
      buildLoopFrom span parts range (some body) ts
    | _ => unexpected t "for statement"

def buildForParts (parts : ForParts) : List Tree → Build ForParts
  | [] => return parts
  | .node .forInit _ _ (t :: _) :: ts => do
    let s ← buildStmt t
    buildForParts { parts with init := some s } ts
  | .node .forCond _ _ (t :: _) :: ts => do
    let x ← buildExpr t
    buildForParts { parts with test := some x } ts
  | .node .forPost _ _ (t :: _) :: ts => do
    let s ← buildStmt t
    buildForParts { parts with post := some s } ts
  | t :: _ => unexpected t "for clause"

def buildRange (span : Span) (targets : List Expr) (define : Bool) (x : Option Expr) :
    List Tree → Build RangeParts
  | [] =>
    match targets, x with
    | _ :: _ :: _ :: _, _ => fail "range permits at most two iteration variables" span
    | _, none => missing "range expression" span
    | targets, some x => return ⟨targets[0]?, targets[1]?, define, x⟩
  | t :: ts =>
    match t.rule with
    | .headerExprList => do
      let targets ← buildExprList t
      buildRange span targets define x ts
    | .rangeOp => buildRange span targets (t.word == ":=") x ts
    | .headerExpr => do
      let x ← buildExpr t
      buildRange span targets define (some x) ts
    | _ => unexpected t "range clause"

def buildSwitchFrom (span : Span) (init : Option Stmt) (tag : Option Expr) (clauses : List CaseClause) :
    List Tree → Build Stmt
  | [] => do return .switch (← info span) init tag clauses
  | .node .switchInit here whole [] :: _ => missing "statement" (matchSpan here whole)
  | .node .switchInit _ _ (t :: _) :: ts => do
    let init ← buildStmt t
    buildSwitchFrom span (some init) tag clauses ts
  | .node .switchTag here whole [] :: _ => missing "expression" (matchSpan here whole)
  | .node .switchTag _ _ (t :: _) :: ts => do
    let tag ← buildExpr t
    buildSwitchFrom span init (some tag) clauses ts
  | t :: ts =>
    match t.rule with
    | .caseClause => do
      let c ← buildClause t
      buildSwitchFrom span init tag (clauses ++ [c]) ts
    | _ => unexpected t "switch statement"

def buildClause : Tree → Build CaseClause
  | .node _ start text children => buildClauseFrom (matchSpan start text) none none children

def buildClauseFrom (span : Span) (values : Option (List Expr)) (body : Option Block) :
    List Tree → Build CaseClause
  | [] =>
    match values, body with
    | _, none => missing "case body" span
    | none, some body => do return .default (← info span) body
    | some values, some body => do return .case (← info span) values body
  | t :: ts =>
    match t.rule with
    | .exprList => do
      let values ← buildExprList t
      buildClauseFrom span (some values) body ts
    | .caseBody => do
      let body ← buildBlock t
      buildClauseFrom span values (some body) ts
    | _ => unexpected t "case clause"

def buildDecl : Tree → Build Decl
  | .node rule start text children =>
    match rule with
    | .typeDecl => do return .types (← buildTypeSpecs children)
    | .varDecl => do return .vars (← buildValueSpecs children)
    | .constDecl => do return .consts (← buildValueSpecs children)
    | rule => unexpected (.node rule start text []) "declaration"

def buildTypeSpecs : List Tree → Build (List TypeSpec)
  | [] => return []
  | t :: ts => do
    let s ← buildTypeSpec t
    return s :: (← buildTypeSpecs ts)

def buildTypeSpec : Tree → Build TypeSpec
  | .node _ start text children => buildTypeSpecFrom (matchSpan start text) none false none children

def buildTypeSpecFrom (span : Span) (name : Option Ident) (isAlias : Bool) (ty : Option TypeExpr) :
    List Tree → Build TypeSpec
  | [] =>
    match name, ty with
    | none, _ => missing "type name" span
    | _, none => missing "type" span
    | some name, some ty => do return ⟨← info span, name, isAlias, ty⟩
  | t :: ts =>
    match t.rule with
    | .ident => do
      let name ← buildIdent t
      buildTypeSpecFrom span (some name) isAlias ty ts
    | .aliasEq => buildTypeSpecFrom span name true ty ts
    | .typeExpr => do
      let ty ← buildType t
      buildTypeSpecFrom span name isAlias (some ty) ts
    | _ => unexpected t "type declaration"

def buildValueSpecs : List Tree → Build (List ValueSpec)
  | [] => return []
  | t :: ts => do
    let s ← buildValueSpec t
    return s :: (← buildValueSpecs ts)

def buildValueSpec : Tree → Build ValueSpec
  | .node _ start text children => buildValueSpecFrom (matchSpan start text) [] none [] children

def buildValueSpecFrom (span : Span) (names : List Ident) (ty : Option TypeExpr) (values : List Expr) :
    List Tree → Build ValueSpec
  | [] => do return ⟨← info span, names, ty, values⟩
  | t :: ts =>
    match t.rule with
    | .identList => do
      let names ← t.children.mapM buildIdent
      buildValueSpecFrom span names ty values ts
    | .typeExpr => do
      let ty ← buildType t
      buildValueSpecFrom span names (some ty) values ts
    | .exprList => do
      let values ← buildExprList t
      buildValueSpecFrom span names ty values ts
    | _ => unexpected t "value declaration"

end

def buildImportFrom (span : Span) (name : Option Ident) (path : String) : List Tree → Build Import
  | [] => do return ⟨← info span, name, path⟩
  | t :: ts =>
    match t.rule with
    | .ident => do
      let name ← buildIdent t
      buildImportFrom span (some name) path ts
    | .stringLit => buildImportFrom span name (unquote t.text) ts
    | _ => unexpected t "import"

def buildImport (t : Tree) : Build Import := buildImportFrom t.span none "" t.children

/-- The declared receiver: the first field of its list. -/
def buildReceiver (t : Tree) : Build (Option Field) :=
  match t.children with
  | p :: _ => do return (← buildParams p).head?
  | [] => missing "receiver" t.span

def buildFuncFrom (span : Span) (recv : Option Field) (name : Option Ident) (sig : Option Signature)
    (body : Option Block) : List Tree → Build FuncDecl
  | [] =>
    match name, sig with
    | none, _ => missing "function name" span
    | _, none => missing "function signature" span
    | some name, some sig => do return ⟨← info span, recv, name, sig, body⟩
  | t :: ts =>
    match t.rule with
    | .receiver => do
      let recv ← buildReceiver t
      buildFuncFrom span recv name sig body ts
    | .ident => do
      let name ← buildIdent t
      buildFuncFrom span recv (some name) sig body ts
    | .signature => do
      let sig ← buildSignature t
      buildFuncFrom span recv name (some sig) body ts
    | .block => do
      let body ← buildBlock t
      buildFuncFrom span recv name sig (some body) ts
    | _ => unexpected t "function declaration"

def buildFunc (t : Tree) : Build FuncDecl := buildFuncFrom t.span none none none none t.children

/-- What a file holds, in the order in which it is read. -/
structure FileParts where
  package : Option Ident := none
  imports : List Import := []
  decls : List TopDecl := []

/-- Adds one top-level tree to the parts of a file. -/
def buildTop (parts : FileParts) (t : Tree) : Build FileParts :=
  match t.rule with
  | .packageClause =>
    match t.children with
    | name :: _ => do return { parts with package := some (← buildIdent name) }
    | [] => missing "package name" t.span
  | .importDecl => do
    let imports ← t.children.mapM buildImport
    return { parts with imports := parts.imports ++ imports }
  | .funcDecl => do return { parts with decls := parts.decls ++ [.func (← buildFunc t)] }
  | .varDecl | .constDecl | .typeDecl => do return { parts with decls := parts.decls ++ [.decl (← buildDecl t)] }
  | .endOfInput => return parts
  | _ => unexpected t "file"

def buildFile (t : Tree) : Build File := do
  let parts ← t.children.foldlM buildTop {}
  match parts.package with
  | some package => return ⟨package, parts.imports, parts.decls, t.span⟩
  | none => throw ⟨.missingPackage, t.span, false⟩

end CheckHandle
