import CheckHandle.Proofs.Identity

/-!
# Syntax as terms

The many shapes of the syntax, seen as one kind of tree. A term is an
expression that a walk reports, another construct whose parts a walk visits, a
construct that a walk leaves alone, or a block of statements. Parts stand in
the order in which a walk visits them. What the theory of a pass needs to know
of a program is said once for terms.
-/

namespace CheckHandle

/-- What a term is, with everything it carries besides its parts. -/
inductive Kind where
  /-- An optional part that is not there. -/
  | absent
  /-- A list of parts. -/
  | list
  /-- What a definition binds. -/
  | targets
  /-- What a declaration names. -/
  | names
  /-- Parameters or results. -/
  | fields
  /-- The declarations of a file. -/
  | decls
  /-- A name in a declaring or selecting position. -/
  | name (name : String)
  -- types
  | typeName (package : Option String) (name : String)
  | pointer
  | sliceType
  | array
  | map
  | funcType
  | struct
  | interface
  | field (variadic : Bool) (tag : Option String)
  | signature
  -- expressions
  | ident (name : String)
  | lit (kind : LitKind) (text : String)
  | composite
  | funcLit
  | paren
  | selector
  | index
  | slice
  | typeAssert
  | call (ellipsis : Bool)
  | unary (op : UnaryOp)
  | binary (op : BinaryOp)
  | keyValue
  | type
  -- statements
  | exprStmt
  | assign (op : AssignOp)
  | incDec (increment : Bool)
  | declStmt
  | ret
  | cond
  | loop
  | range (define : Bool)
  | switch
  | blockStmt
  | go
  | defer
  | branch (kind : BranchKind)
  | case
  | default
  -- declarations
  | types
  | vars
  | consts
  | typeSpec (isAlias : Bool)
  | valueSpec
  | func
  | imported (path : String)
  | file (span : Span)
deriving DecidableEq

mutual

inductive Term where
  /-- An expression; in a list, it may be replaced by several. -/
  | expr (listed : Bool) (kind : Kind) (info : Info) (parts : List Term)
  /-- A construct that is visited for its parts. -/
  | group (kind : Kind) (info : Option Info) (parts : List Term)
  /-- A construct that is not visited. -/
  | fixed (kind : Kind) (info : Option Info) (parts : List Term)
  | block (info : Info) (stmts : List Statement)

/-- A statement that stands in a block. -/
inductive Statement where
  | mk (kind : Kind) (info : Info) (parts : List Term)

end

namespace Statement

def kind : Statement → Kind
  | .mk kind _ _ => kind

def info : Statement → Info
  | .mk _ info _ => info

def parts : Statement → List Term
  | .mk _ _ parts => parts

end Statement

/-! ## From syntax to terms -/

def Expr.kind : Expr → Kind
  | .ident _ name => .ident name
  | .lit _ kind text => .lit kind text
  | .composite .. => .composite
  | .funcLit .. => .funcLit
  | .paren .. => .paren
  | .selector .. => .selector
  | .index .. => .index
  | .slice .. => .slice
  | .typeAssert .. => .typeAssert
  | .call _ _ _ ellipsis => .call ellipsis
  | .unary _ op _ => .unary op
  | .binary _ op _ _ => .binary op
  | .keyValue .. => .keyValue
  | .type .. => .type

def Stmt.kind : Stmt → Kind
  | .expr .. => .exprStmt
  | .assign _ _ op _ => .assign op
  | .incDec _ _ increment => .incDec increment
  | .decl .. => .declStmt
  | .ret .. => .ret
  | .cond .. => .cond
  | .loop .. => .loop
  | .range _ _ _ define _ _ => .range define
  | .switch .. => .switch
  | .block .. => .blockStmt
  | .go .. => .go
  | .defer .. => .defer
  | .branch _ kind => .branch kind

/-- The left-hand sides of an assignment, which are defined or not. -/
def targetKind (define : Bool) : Kind := if define then .targets else .list

def Term.absent : Term := .fixed .absent none []

def Ident.term (x : Ident) : Term := .fixed (.name x.name) x.info []

mutual

def TypeExpr.term : TypeExpr → Term
  | .name info package name => .fixed (.typeName package name) info []
  | .pointer info elem => .fixed .pointer info [elem.term]
  | .slice info elem => .fixed .sliceType info [elem.term]
  | .array info len elem => .fixed .array info [fixedTerm? len, elem.term]
  | .map info key value => .fixed .map info [key.term, value.term]
  | .func info sig => .fixed .funcType info [sig.term]
  | .struct info fields => .fixed .struct info (fieldTerms fields)
  | .interface info elems => .fixed .interface info (fieldTerms elems)

def typeTerm? : Option TypeExpr → Term
  | none => .absent
  | some ty => ty.term

def Field.term : Field → Term
  | ⟨info, names, ty, variadic, tag⟩ =>
    .fixed (.field variadic tag) info [.fixed .names none (names.map Ident.term), ty.term]

def fieldTerms : List Field → List Term
  | [] => []
  | f :: fs => f.term :: fieldTerms fs

def Signature.term : Signature → Term
  | ⟨params, results⟩ =>
    .fixed .signature none [.fixed .fields none (fieldTerms params), .fixed .fields none (fieldTerms results)]

/-- An expression inside a type. -/
def fixedTerm? : Option Expr → Term
  | none => .absent
  | some x => .fixed x.kind x.info x.parts

def Expr.parts : Expr → List Term
  | .ident .. => []
  | .lit .. => []
  | .composite _ ty elts => [typeTerm? ty, .group .list none (exprTerms false elts)]
  | .funcLit _ sig body => [sig.term, body.term]
  | .paren _ x => [.expr false x.kind x.info x.parts]
  | .selector _ x sel => [.expr false x.kind x.info x.parts, sel.term]
  | .index _ x index => [.expr false x.kind x.info x.parts, .expr false index.kind index.info index.parts]
  | .slice _ x lo hi max =>
    [.expr false x.kind x.info x.parts, exprTerm? lo, exprTerm? hi, exprTerm? max]
  | .typeAssert _ x ty => [.expr false x.kind x.info x.parts, ty.term]
  | .call _ fn args _ =>
    [.expr false fn.kind fn.info fn.parts, .group .list none (exprTerms true args)]
  | .unary _ _ x => [.expr false x.kind x.info x.parts]
  | .binary _ _ x y => [.expr false x.kind x.info x.parts, .expr false y.kind y.info y.parts]
  | .keyValue _ key value =>
    [.expr false key.kind key.info key.parts, .expr false value.kind value.info value.parts]
  | .type _ ty => [ty.term]

def exprTerm? : Option Expr → Term
  | none => .absent
  | some x => .expr false x.kind x.info x.parts

def exprTerms (listed : Bool) : List Expr → List Term
  | [] => []
  | x :: xs => .expr listed x.kind x.info x.parts :: exprTerms listed xs

def Block.term : Block → Term
  | ⟨info, stmts⟩ => .block info (statements stmts)

def Stmt.parts : Stmt → List Term
  | .expr _ x => [.expr false x.kind x.info x.parts]
  | .assign _ lhs op rhs =>
    [.group (targetKind (op == .define)) none (exprTerms false lhs), .group .list none (exprTerms true rhs)]
  | .incDec _ x _ => [.expr false x.kind x.info x.parts]
  | .decl _ d => [d.term]
  | .ret _ results => [.group .list none (exprTerms true results)]
  | .cond _ init test body other =>
    [stmtTerm? init, .expr false test.kind test.info test.parts, body.term, stmtTerm? other]
  | .loop _ init test post body => [stmtTerm? init, exprTerm? test, stmtTerm? post, body.term]
  | .range _ key value define x body =>
    [.group (targetKind define) none [exprTerm? key, exprTerm? value], .expr false x.kind x.info x.parts, body.term]
  | .switch _ init tag clauses =>
    [stmtTerm? init, exprTerm? tag, .group .list none (clauseTerms clauses)]
  | .block _ body => [body.term]
  | .go _ call => [.expr false call.kind call.info call.parts]
  | .defer _ call => [.expr false call.kind call.info call.parts]
  | .branch .. => []

/-- A statement in a header or after `else`. -/
def stmtTerm? : Option Stmt → Term
  | none => .absent
  | some s => .group s.kind s.info s.parts

def statements : List Stmt → List Statement
  | [] => []
  | s :: ss => .mk s.kind s.info s.parts :: statements ss

def clauseTerms : List CaseClause → List Term
  | [] => []
  | .case info values body :: cs =>
    .group .case info [.group .list none (exprTerms false values), body.term] :: clauseTerms cs
  | .default info body :: cs => .group .default info [body.term] :: clauseTerms cs

def Decl.term : Decl → Term
  | .types specs => .fixed .types none (typeSpecTerms specs)
  | .vars specs => .group .vars none (valueSpecTerms specs)
  | .consts specs => .group .consts none (valueSpecTerms specs)

def typeSpecTerms : List TypeSpec → List Term
  | [] => []
  | ⟨info, name, isAlias, ty⟩ :: specs =>
    .fixed (.typeSpec isAlias) info [.fixed .names none [name.term], ty.term] :: typeSpecTerms specs

def valueSpecTerms : List ValueSpec → List Term
  | [] => []
  | ⟨info, names, ty, values⟩ :: specs =>
    .group .valueSpec info
        [.fixed .names none (names.map Ident.term), typeTerm? ty, .group .list none (exprTerms true values)]
      :: valueSpecTerms specs

end

def Expr.term (listed : Bool) (x : Expr) : Term := .expr listed x.kind x.info x.parts

def Stmt.statement (s : Stmt) : Statement := .mk s.kind s.info s.parts

def fieldTerm? : Option Field → Term
  | none => .absent
  | some f => f.term

def blockTerm? : Option Block → Term
  | none => .absent
  | some b => b.term

def FuncDecl.term (f : FuncDecl) : Term :=
  .group .func f.info [fieldTerm? f.recv, f.name.term, f.sig.term, blockTerm? f.body]

def TopDecl.term : TopDecl → Term
  | .func f => f.term
  | .decl d => d.term

def identTerm? : Option Ident → Term
  | none => .absent
  | some x => x.term

def Import.term (i : Import) : Term := .fixed (.imported i.path) i.info [identTerm? i.rename]

def File.term (f : File) : Term := .group (.file f.span) none
    [f.package.term, .fixed .list none (f.imports.map Import.term), .group .decls none (f.decls.map TopDecl.term)]

/-! ## Identities in terms -/

def countInfo? (i : NodeId) : Option Info → Nat
  | none => 0
  | some info => info.count i

mutual

def Term.count (i : NodeId) : Term → Nat
  | .expr _ _ info parts => info.count i + countAll i parts
  | .group _ info parts => countInfo? i info + countAll i parts
  | .fixed _ info parts => countInfo? i info + countAll i parts
  | .block info stmts => info.count i + countIn i stmts

def countAll (i : NodeId) : List Term → Nat
  | [] => 0
  | t :: ts => t.count i + countAll i ts

def countIn (i : NodeId) : List Statement → Nat
  | [] => 0
  | .mk _ info parts :: ss => info.count i + countAll i parts + countIn i ss

end

/-- A function that makes a list of each element in turn. -/
theorem append_of_cons {α β : Type} {f : List α → List β} (nil : f [] = [])
    (cons : ∀ a as, f (a :: as) = f [a] ++ f as) (as bs : List α) : f (as ++ bs) = f as ++ f bs := by
  induction as with
  | nil => rw [nil, List.nil_append, List.nil_append]
  | cons a as ih => rw [List.cons_append, cons, ih, cons a as, List.append_assoc]

theorem countAll_append (i : NodeId) (ts us : List Term) :
    countAll i (ts ++ us) = countAll i ts + countAll i us := by
  induction ts with
  | nil => simp [countAll]
  | cons t ts ih => simp [countAll, ih, Nat.add_assoc]

theorem countIn_append (i : NodeId) (ss ts : List Statement) :
    countIn i (ss ++ ts) = countIn i ss + countIn i ts := by
  induction ss with
  | nil => simp [countIn]
  | cons s ss ih =>
    obtain ⟨kind, info, parts⟩ := s
    simp [countIn, ih, Nat.add_assoc]

section Count

variable (i : NodeId)

theorem Ident.count_term (x : Ident) : x.term.count i = x.count i := by
  simp [Ident.term, Term.count, countInfo?, countAll, Ident.count]

theorem countAll_idents (xs : List Ident) : countAll i (xs.map Ident.term) = countIdents i xs := by
  induction xs with
  | nil => rfl
  | cons x xs ih => simp [countAll, countIdents, x.count_term, ih]

theorem count_absent : Term.absent.count i = 0 := by
  simp [Term.absent, Term.count, countInfo?, countAll]

attribute [local simp] Term.count countInfo? countAll countIn countAll_idents count_absent
  Ident.count_term Nat.add_assoc TypeExpr.term TypeExpr.count typeTerm? countType? Field.term Field.count
  fieldTerms countFields Signature.term Signature.count fixedTerm? countExpr? Expr.parts Expr.count exprTerm?
  exprTerms countExprs Block.term Block.count Stmt.parts Stmt.count stmtTerm? countStmt? statements countStmts
  clauseTerms countClauses Decl.term Decl.count typeSpecTerms countTypeSpecs valueSpecTerms countValueSpecs

mutual

theorem TypeExpr.count_term : ∀ t : TypeExpr, t.term.count i = t.count i
  | .name .. => by simp
  | .pointer _ elem | .slice _ elem => by simp [elem.count_term]
  | .array _ len elem => by simp [elem.count_term, count_fixedTerm? len]
  | .map _ key value => by simp [key.count_term, value.count_term]
  | .func _ sig => by simp [sig.count_term]
  | .struct _ fields | .interface _ fields => by simp [countAll_fields fields]

theorem count_typeTerm? : ∀ t : Option TypeExpr, (typeTerm? t).count i = countType? i t
  | none => by simp
  | some t => by simp [t.count_term]

theorem Field.count_term : ∀ f : Field, f.term.count i = f.count i
  | ⟨_, names, ty, _, _⟩ => by simp [ty.count_term]

theorem countAll_fields : ∀ fs : List Field, countAll i (fieldTerms fs) = countFields i fs
  | [] => by simp
  | f :: fs => by simp [f.count_term, countAll_fields fs]

theorem Signature.count_term : ∀ sig : Signature, sig.term.count i = sig.count i
  | ⟨params, results⟩ => by simp [countAll_fields params, countAll_fields results]

theorem count_fixedTerm? : ∀ x : Option Expr, (fixedTerm? x).count i = countExpr? i x
  | none => by simp
  | some x => by simp [x.count_parts]

/-- The identities of an expression are its own and those of its parts. -/
theorem Expr.count_parts : ∀ x : Expr, x.info.count i + countAll i x.parts = x.count i
  | .ident info _ | .lit info _ _ => by
    show info.count i + _ = _
    simp
  | .composite info ty elts => by
    show info.count i + _ = _
    simp [count_typeTerm? ty, countAll_exprs false elts]
  | .funcLit info sig body => by
    show info.count i + _ = _
    simp [sig.count_term, body.count_term]
  | .paren info x | .unary info _ x => by
    show info.count i + _ = _
    simp [x.count_parts]
  | .selector info x sel => by
    show info.count i + _ = _
    simp [x.count_parts, sel.count_term]
  | .index info x y | .binary info _ x y | .keyValue info x y => by
    show info.count i + _ = _
    simp [x.count_parts, y.count_parts]
  | .slice info x lo hi max => by
    show info.count i + _ = _
    simp [x.count_parts, count_exprTerm? lo, count_exprTerm? hi, count_exprTerm? max]
  | .typeAssert info x ty => by
    show info.count i + _ = _
    simp [x.count_parts, ty.count_term]
  | .call info fn args _ => by
    show info.count i + _ = _
    simp [fn.count_parts, countAll_exprs true args]
  | .type info ty => by
    show info.count i + _ = _
    simp [ty.count_term]

theorem count_exprTerm? : ∀ x : Option Expr, (exprTerm? x).count i = countExpr? i x
  | none => by simp
  | some x => by simp [x.count_parts]

theorem countAll_exprs (listed : Bool) : ∀ xs : List Expr, countAll i (exprTerms listed xs) = countExprs i xs
  | [] => by simp
  | x :: xs => by simp [x.count_parts, countAll_exprs listed xs]

theorem Block.count_term : ∀ b : Block, b.term.count i = b.count i
  | ⟨_, stmts⟩ => by simp [countIn_stmts stmts]

theorem Stmt.count_parts : ∀ s : Stmt, s.info.count i + countAll i s.parts = s.count i
  | .expr info x | .incDec info x _ | .go info x | .defer info x => by
    show info.count i + _ = _
    simp [x.count_parts]
  | .assign info lhs _ rhs => by
    show info.count i + _ = _
    simp [countAll_exprs false lhs, countAll_exprs true rhs]
  | .decl info d => by
    show info.count i + _ = _
    simp [d.count_term]
  | .ret info results => by
    show info.count i + _ = _
    simp [countAll_exprs true results]
  | .cond info init test body other => by
    show info.count i + _ = _
    simp [count_stmtTerm? init, test.count_parts, body.count_term, count_stmtTerm? other]
  | .loop info init test post body => by
    show info.count i + _ = _
    simp [count_stmtTerm? init, count_exprTerm? test, count_stmtTerm? post, body.count_term]
  | .range info key value _ x body => by
    show info.count i + _ = _
    simp [count_exprTerm? key, count_exprTerm? value, x.count_parts, body.count_term]
  | .switch info init tag clauses => by
    show info.count i + _ = _
    simp [count_stmtTerm? init, count_exprTerm? tag, countAll_clauses clauses]
  | .block info body => by
    show info.count i + _ = _
    simp [body.count_term]
  | .branch info _ => by
    show info.count i + _ = _
    simp

theorem count_stmtTerm? : ∀ s : Option Stmt, (stmtTerm? s).count i = countStmt? i s
  | none => by simp
  | some s => by simp [s.count_parts]

theorem countIn_stmts : ∀ ss : List Stmt, countIn i (statements ss) = countStmts i ss
  | [] => by simp
  | s :: ss => by simp [s.count_parts, countIn_stmts ss]

theorem countAll_clauses : ∀ cs : List CaseClause, countAll i (clauseTerms cs) = countClauses i cs
  | [] => by simp
  | .case _ values body :: cs => by simp [countAll_exprs false values, body.count_term, countAll_clauses cs]
  | .default _ body :: cs => by simp [body.count_term, countAll_clauses cs]

theorem Decl.count_term : ∀ d : Decl, d.term.count i = d.count i
  | .types specs => by simp [countAll_typeSpecs specs]
  | .vars specs | .consts specs => by simp [countAll_valueSpecs specs]

theorem countAll_typeSpecs : ∀ specs : List TypeSpec, countAll i (typeSpecTerms specs) = countTypeSpecs i specs
  | [] => by simp
  | ⟨_, name, _, ty⟩ :: specs => by simp [name.count_term, ty.count_term, countAll_typeSpecs specs]

theorem countAll_valueSpecs : ∀ specs : List ValueSpec, countAll i (valueSpecTerms specs) = countValueSpecs i specs
  | [] => by simp
  | ⟨_, names, ty, values⟩ :: specs => by
    simp [count_typeTerm? ty, countAll_exprs true values, countAll_valueSpecs specs]

end

end Count

end CheckHandle
