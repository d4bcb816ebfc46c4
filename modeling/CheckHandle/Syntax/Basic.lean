import CheckHandle.Span

/-!
# Syntax trees

Trees of the host language. Every node carries an `Info`: an identity that is
unique in its package and the span it was read from. Nodes that the expansion
makes have fresh identities and the synthetic span.
-/

namespace CheckHandle

/-- A name in a declaring or selecting position. -/
structure Ident where
  info : Info
  name : String
deriving DecidableEq, Inhabited

inductive LitKind where
  | int
  | float
  | imag
  | rune
  | string
deriving DecidableEq, Inhabited

inductive UnaryOp where
  | neg
  | pos
  | not
  | bitNot
  | deref
  | addr
deriving DecidableEq, Inhabited

def UnaryOp.text : UnaryOp → String
  | .neg => "-"
  | .pos => "+"
  | .not => "!"
  | .bitNot => "^"
  | .deref => "*"
  | .addr => "&"

/-- The operator written so; anything else is taken for the last one. -/
def UnaryOp.ofText (s : String) : UnaryOp :=
  if s == "-" then .neg
  else if s == "+" then .pos
  else if s == "!" then .not
  else if s == "^" then .bitNot
  else if s == "*" then .deref
  else .addr

inductive BinaryOp where
  | lor
  | land
  | eq
  | ne
  | lt
  | le
  | gt
  | ge
  | add
  | sub
  | or
  | xor
  | mul
  | div
  | rem
  | shl
  | shr
  | and
  | andNot
deriving DecidableEq, Inhabited

namespace BinaryOp

def text : BinaryOp → String
  | .lor => "||"
  | .land => "&&"
  | .eq => "=="
  | .ne => "!="
  | .lt => "<"
  | .le => "<="
  | .gt => ">"
  | .ge => ">="
  | .add => "+"
  | .sub => "-"
  | .or => "|"
  | .xor => "^"
  | .mul => "*"
  | .div => "/"
  | .rem => "%"
  | .shl => "<<"
  | .shr => ">>"
  | .and => "&"
  | .andNot => "&^"

def all : List BinaryOp :=
  [.lor, .land, .eq, .ne, .lt, .le, .gt, .ge, .add, .sub, .or, .xor, .mul, .div, .rem, .shl,
   .shr, .and, .andNot]

/-- The operator written so. -/
def ofText? (s : String) : Option BinaryOp :=
  all.find? fun op => op.text == s

/-- Binding strength, from 1 (weakest) to 5. -/
def precedence : BinaryOp → Nat
  | .lor => 1
  | .land => 2
  | .eq | .ne | .lt | .le | .gt | .ge => 3
  | .add | .sub | .or | .xor => 4
  | .mul | .div | .rem | .shl | .shr | .and | .andNot => 5

def isComparison (op : BinaryOp) : Bool :=
  op.precedence == 3

end BinaryOp

inductive AssignOp where
  | assign
  | define
  | compound (op : BinaryOp)
deriving DecidableEq, Inhabited

inductive BranchKind where
  | break
  | continue
  | fallthrough
deriving DecidableEq, Inhabited

def BranchKind.text : BranchKind → String
  | .break => "break"
  | .continue => "continue"
  | .fallthrough => "fallthrough"

mutual

/-- A type as it is written. -/
inductive TypeExpr where
  | name (info : Info) (package : Option String) (name : String)
  | pointer (info : Info) (elem : TypeExpr)
  | slice (info : Info) (elem : TypeExpr)
  /-- Without a length, the literal that follows decides it. -/
  | array (info : Info) (len : Option Expr) (elem : TypeExpr)
  | map (info : Info) (key value : TypeExpr)
  | func (info : Info) (sig : Signature)
  | struct (info : Info) (fields : List Field)
  /-- A method is a field with one name and a function type; an embedded
  interface has no name. -/
  | interface (info : Info) (elems : List Field)

/-- Names that share a type: parameters, results or struct fields. -/
structure Field where
  info : Info
  names : List Ident
  ty : TypeExpr
  variadic : Bool
  /-- The tag of a struct field, quotes included. -/
  tag : Option String

structure Signature where
  params : List Field
  results : List Field

inductive Expr where
  | ident (info : Info) (name : String)
  | lit (info : Info) (kind : LitKind) (text : String)
  /-- Without a type, the surrounding literal decides it. -/
  | composite (info : Info) (ty : Option TypeExpr) (elts : List Expr)
  | funcLit (info : Info) (sig : Signature) (body : Block)
  | paren (info : Info) (x : Expr)
  | selector (info : Info) (x : Expr) (sel : Ident)
  | index (info : Info) (x index : Expr)
  | slice (info : Info) (x : Expr) (lo hi max : Option Expr)
  | typeAssert (info : Info) (x : Expr) (ty : TypeExpr)
  | call (info : Info) (fn : Expr) (args : List Expr) (ellipsis : Bool)
  | unary (info : Info) (op : UnaryOp) (x : Expr)
  | binary (info : Info) (op : BinaryOp) (x y : Expr)
  | keyValue (info : Info) (key value : Expr)
  /-- A type where a value is expected, such as the target of a conversion. -/
  | type (info : Info) (ty : TypeExpr)

structure Block where
  info : Info
  stmts : List Stmt

inductive Stmt where
  | expr (info : Info) (x : Expr)
  | assign (info : Info) (lhs : List Expr) (op : AssignOp) (rhs : List Expr)
  | incDec (info : Info) (x : Expr) (increment : Bool)
  | decl (info : Info) (decl : Decl)
  | ret (info : Info) (results : List Expr)
  /-- The other branch is a block or another conditional. -/
  | cond (info : Info) (init : Option Stmt) (test : Expr) (body : Block) (other : Option Stmt)
  | loop (info : Info) (init : Option Stmt) (test : Option Expr) (post : Option Stmt)
      (body : Block)
  | range (info : Info) (key value : Option Expr) (define : Bool) (x : Expr) (body : Block)
  | switch (info : Info) (init : Option Stmt) (tag : Option Expr) (clauses : List CaseClause)
  | block (info : Info) (body : Block)
  | go (info : Info) (call : Expr)
  | defer (info : Info) (call : Expr)
  | branch (info : Info) (kind : BranchKind)

inductive CaseClause where
  | case (info : Info) (values : List Expr) (body : Block)
  | default (info : Info) (body : Block)

/-- A declaration that may also stand inside a function. -/
inductive Decl where
  | types (specs : List TypeSpec)
  | vars (specs : List ValueSpec)
  | consts (specs : List ValueSpec)

structure TypeSpec where
  info : Info
  name : Ident
  /-- The name stands for the type itself, not for a new type. -/
  isAlias : Bool
  ty : TypeExpr

structure ValueSpec where
  info : Info
  names : List Ident
  ty : Option TypeExpr
  values : List Expr

end

structure FuncDecl where
  info : Info
  recv : Option Field
  name : Ident
  sig : Signature
  body : Option Block

inductive TopDecl where
  | func (f : FuncDecl)
  | decl (d : Decl)

structure Import where
  info : Info
  rename : Option Ident
  /-- The import path, without quotes. -/
  path : String

structure File where
  package : Ident
  imports : List Import
  decls : List TopDecl
  span : Span

/-- The last element of an import path. -/
def lastElement (path : String) : String :=
  String.ofList (path.toList.reverse.takeWhile (· != '/')).reverse

/-- The name under which the file knows the package. -/
def Import.localName (i : Import) : String :=
  match i.rename with
  | some name => name.name
  | none => lastElement i.path

namespace TypeExpr

def info : TypeExpr → Info
  | .name info .. | .pointer info _ | .slice info _ | .array info .. | .map info ..
  | .func info _ | .struct info _ | .interface info _ => info

/-- The type is the plain name `wanted`. -/
def isNamed (t : TypeExpr) (wanted : String) : Bool :=
  match t with
  | .name _ none base => base == wanted
  | _ => false

end TypeExpr

/-- One type for each declared result: `(a, b int)` gives two. -/
def Signature.resultSlots (sig : Signature) : List TypeExpr :=
  sig.results.flatMap fun field => List.replicate (max field.names.length 1) field.ty

namespace Expr

def info : Expr → Info
  | .ident info _ | .lit info .. | .composite info .. | .funcLit info .. | .paren info _
  | .selector info .. | .index info .. | .slice info .. | .typeAssert info .. | .call info ..
  | .unary info .. | .binary info .. | .keyValue info .. | .type info _ => info

def ident? : Expr → Option String
  | .ident _ name => some name
  | _ => none

/-- The arguments, if the expression is a call of the plain name `name`. -/
def argsOf? (name : String) : Expr → Option (List Expr)
  | .call _ (.ident _ fn) args _ => if fn == name then some args else none
  | _ => none

end Expr

namespace Stmt

def info : Stmt → Info
  | .expr info _ | .assign info .. | .incDec info .. | .decl info _ | .ret info _
  | .cond info .. | .loop info .. | .range info .. | .switch info .. | .block info _
  | .go info _ | .defer info _ | .branch info _ => info

end Stmt

namespace CaseClause

def info : CaseClause → Info
  | .case info .. | .default info _ => info

def body : CaseClause → Block
  | .case _ _ body | .default _ body => body

end CaseClause

/-- An identifier made by the expansion. -/
def Expr.fresh (name : String) : Fresh Expr := do
  return .ident (← freshInfo) name

/-- A call of a plain name, made by the expansion. -/
def Expr.freshCall (fn : String) (args : List Expr) : Fresh Expr := do
  let callee ← Expr.fresh fn
  return .call (← freshInfo) callee args false

end CheckHandle
