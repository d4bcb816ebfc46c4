import CheckHandle.Syntax.Basic
import CheckHandle.Text.Quoted

/-!
# Outlines

A syntax tree as plain data: records, tagged values, lists, texts and numbers,
with every field named. The outline of a file is what a reader sees who wants
the whole tree, identities and spans included.
-/

namespace CheckHandle

open Text

/-- Plain data with named parts. -/
inductive Outline where
  | nat (n : Nat)
  | text (s : String)
  | flag (b : Bool)
  | absent
  | present (x : Outline)
  | list (items : List Outline)
  /-- A record of the type `type`. -/
  | record (type : String) (fields : List (String × Outline))
  /-- A number of the type `type`. -/
  | number (type : String) (n : Nat)
  /-- One of several forms, without parts. -/
  | word (form : String)
  /-- One of several forms, with unnamed parts. -/
  | variant (form : String) (parts : List Outline)
  /-- One of several forms, with named parts. -/
  | variantOf (form : String) (fields : List (String × Outline))

namespace Outline

/-- A new line, four blanks for each level. -/
def newLine (depth : Nat) : String :=
  "\n" ++ String.ofList (List.replicate (4 * depth) ' ')

/-- `items`, each on a line of its own and ended by a comma, between two
brackets. -/
def bracket (depth : Nat) (opening closing : String) (items : List String) : String :=
  opening ++ String.join (items.map fun s => newLine (depth + 1) ++ s ++ ",")
    ++ newLine depth ++ closing

mutual

/-- The outline as indented text; `depth` is the level of the line on which it
starts. -/
def render (depth : Nat) : Outline → String
  | .nat n => toString n
  | .text s => quoteText s
  | .flag b => if b then "true" else "false"
  | .absent => "None"
  | .present x => bracket depth "Some(" ")" [x.render (depth + 1)]
  | .list [] => "[]"
  | .list items => bracket depth "[" "]" (renderAll (depth + 1) items)
  | .record type fields => bracket depth (type ++ " \x7b") "\x7d" (renderFields (depth + 1) fields)
  | .number type n => bracket depth (type ++ "(") ")" [toString n]
  | .word form => form
  | .variant form parts => bracket depth (form ++ "(") ")" (renderAll (depth + 1) parts)
  | .variantOf form fields =>
    bracket depth (form ++ " \x7b") "\x7d" (renderFields (depth + 1) fields)

def renderAll (depth : Nat) : List Outline → List String
  | [] => []
  | x :: xs => x.render depth :: renderAll depth xs

def renderFields (depth : Nat) : List (String × Outline) → List String
  | [] => []
  | (name, x) :: xs => (name ++ ": " ++ x.render depth) :: renderFields depth xs

end

def ofOption : Option Outline → Outline
  | none => .absent
  | some x => .present x

end Outline

def Span.outline (span : Span) : Outline :=
  .record "Span" [("start", .nat span.start), ("end", .nat span.stop)]

/-- The fields that every node starts with. -/
def Info.fields (info : Info) : List (String × Outline) :=
  [("id", .number "NodeId" info.id), ("span", info.span.outline)]

/-- A node whose form is told apart by its kind. -/
def kindNode (type : String) (info : Info) (kind : Outline) : Outline :=
  .record type (info.fields ++ [("kind", kind)])

def Ident.outline (i : Ident) : Outline :=
  .record "Ident" (i.info.fields ++ [("name", .text i.name)])

def LitKind.outline : LitKind → Outline
  | .int => .word "Int"
  | .float => .word "Float"
  | .imag => .word "Imag"
  | .rune => .word "Char"
  | .string => .word "String"

def UnaryOp.outline : UnaryOp → Outline
  | .neg => .word "Neg"
  | .pos => .word "Pos"
  | .not => .word "Not"
  | .bitNot => .word "BitNot"
  | .deref => .word "Deref"
  | .addr => .word "Addr"

def BinaryOp.outline : BinaryOp → Outline
  | .lor => .word "LOr"
  | .land => .word "LAnd"
  | .eq => .word "Eq"
  | .ne => .word "Ne"
  | .lt => .word "Lt"
  | .le => .word "Le"
  | .gt => .word "Gt"
  | .ge => .word "Ge"
  | .add => .word "Add"
  | .sub => .word "Sub"
  | .or => .word "Or"
  | .xor => .word "Xor"
  | .mul => .word "Mul"
  | .div => .word "Div"
  | .rem => .word "Rem"
  | .shl => .word "Shl"
  | .shr => .word "Shr"
  | .and => .word "And"
  | .andNot => .word "AndNot"

def AssignOp.outline : AssignOp → Outline
  | .assign => .word "Assign"
  | .define => .word "Define"
  | .compound op => .variant "Compound" [op.outline]

def BranchKind.outline : BranchKind → Outline
  | .break => .word "Break"
  | .continue => .word "Continue"
  | .fallthrough => .word "Fallthrough"

mutual

def TypeExpr.outline : TypeExpr → Outline
  | .name info package name =>
    kindNode "TypeExpr" info
      (.variantOf "Name" [("package", Outline.ofOption (package.map .text)), ("name", .text name)])
  | .pointer info elem => kindNode "TypeExpr" info (.variant "Pointer" [elem.outline])
  | .slice info elem => kindNode "TypeExpr" info (.variant "Slice" [elem.outline])
  | .array info len elem =>
    kindNode "TypeExpr" info
      (.variantOf "Array" [("len", outlineExpr? len), ("elem", elem.outline)])
  | .map info key value =>
    kindNode "TypeExpr" info
      (.variantOf "Map" [("key", key.outline), ("value", value.outline)])
  | .func info sig => kindNode "TypeExpr" info (.variant "Func" [sig.outline])
  | .struct info fields =>
    kindNode "TypeExpr" info (.variant "Struct" [.list (outlineFields fields)])
  | .interface info elems =>
    kindNode "TypeExpr" info (.variant "Interface" [.list (outlineFields elems)])

def outlineType? : Option TypeExpr → Outline
  | none => .absent
  | some ty => .present ty.outline

def Field.outline : Field → Outline
  | ⟨info, names, ty, variadic, tag⟩ =>
    .record "Field" (info.fields ++
      [("names", .list (names.map Ident.outline)), ("ty", ty.outline),
       ("variadic", .flag variadic), ("tag", Outline.ofOption (tag.map .text))])

def outlineFields : List Field → List Outline
  | [] => []
  | f :: fs => f.outline :: outlineFields fs

def Signature.outline : Signature → Outline
  | ⟨params, results⟩ =>
    .record "Signature"
      [("params", .list (outlineFields params)), ("results", .list (outlineFields results))]

def Expr.outline : Expr → Outline
  | .ident info name => kindNode "Expr" info (.variant "Ident" [.text name])
  | .lit info kind text => kindNode "Expr" info (.variant "Lit" [kind.outline, .text text])
  | .composite info ty elts =>
    kindNode "Expr" info
      (.variantOf "Composite" [("ty", outlineType? ty), ("elts", .list (outlineExprs elts))])
  | .funcLit info sig body =>
    kindNode "Expr" info
      (.variant "FuncLit" [.record "FuncLit" [("sig", sig.outline), ("body", body.outline)]])
  | .paren info x => kindNode "Expr" info (.variant "Paren" [x.outline])
  | .selector info x sel =>
    kindNode "Expr" info (.variantOf "Selector" [("x", x.outline), ("sel", sel.outline)])
  | .index info x index =>
    kindNode "Expr" info (.variantOf "Index" [("x", x.outline), ("index", index.outline)])
  | .slice info x lo hi max =>
    kindNode "Expr" info
      (.variantOf "Slice"
        [("x", x.outline), ("lo", outlineExpr? lo), ("hi", outlineExpr? hi),
         ("max", outlineExpr? max)])
  | .typeAssert info x ty =>
    kindNode "Expr" info (.variantOf "TypeAssert" [("x", x.outline), ("ty", ty.outline)])
  | .call info fn args ellipsis =>
    kindNode "Expr" info
      (.variantOf "Call"
        [("fun", fn.outline), ("args", .list (outlineExprs args)), ("ellipsis", .flag ellipsis)])
  | .unary info op x =>
    kindNode "Expr" info (.variantOf "Unary" [("op", op.outline), ("x", x.outline)])
  | .binary info op x y =>
    kindNode "Expr" info
      (.variantOf "Binary" [("op", op.outline), ("x", x.outline), ("y", y.outline)])
  | .keyValue info key value =>
    kindNode "Expr" info
      (.variantOf "KeyValue" [("key", key.outline), ("value", value.outline)])
  | .type info ty => kindNode "Expr" info (.variant "Type" [ty.outline])

def outlineExpr? : Option Expr → Outline
  | none => .absent
  | some x => .present x.outline

def outlineExprs : List Expr → List Outline
  | [] => []
  | x :: xs => x.outline :: outlineExprs xs

def Block.outline : Block → Outline
  | ⟨info, stmts⟩ => .record "Block" (info.fields ++ [("stmts", .list (outlineStmts stmts))])

def Stmt.outline : Stmt → Outline
  | .expr info x => kindNode "Stmt" info (.variant "Expr" [x.outline])
  | .assign info lhs op rhs =>
    kindNode "Stmt" info
      (.variantOf "Assign"
        [("lhs", .list (outlineExprs lhs)), ("op", op.outline), ("rhs", .list (outlineExprs rhs))])
  | .incDec info x increment =>
    kindNode "Stmt" info (.variantOf "IncDec" [("x", x.outline), ("inc", .flag increment)])
  | .decl info d => kindNode "Stmt" info (.variant "Decl" [d.outline])
  | .ret info results =>
    kindNode "Stmt" info (.variant "Return" [.list (outlineExprs results)])
  | .cond info init test body other =>
    kindNode "Stmt" info
      (.variant "If"
        [.record "IfStmt"
          [("init", outlineStmt? init), ("cond", test.outline), ("then", body.outline),
           ("els", outlineStmt? other)]])
  | .loop info init test post body =>
    kindNode "Stmt" info
      (.variantOf "For"
        [("init", outlineStmt? init), ("cond", outlineExpr? test), ("post", outlineStmt? post),
         ("body", body.outline)])
  | .range info key value define x body =>
    kindNode "Stmt" info
      (.variantOf "Range"
        [("key", outlineExpr? key), ("value", outlineExpr? value), ("define", .flag define),
         ("x", x.outline), ("body", body.outline)])
  | .switch info init tag clauses =>
    kindNode "Stmt" info
      (.variantOf "Switch"
        [("init", outlineStmt? init), ("tag", outlineExpr? tag),
         ("clauses", .list (outlineClauses clauses))])
  | .block info body => kindNode "Stmt" info (.variant "Block" [body.outline])
  | .go info call => kindNode "Stmt" info (.variant "Go" [call.outline])
  | .defer info call => kindNode "Stmt" info (.variant "Defer" [call.outline])
  | .branch info kind => kindNode "Stmt" info (.variant "Branch" [kind.outline])

def outlineStmt? : Option Stmt → Outline
  | none => .absent
  | some s => .present s.outline

def outlineStmts : List Stmt → List Outline
  | [] => []
  | s :: ss => s.outline :: outlineStmts ss

def CaseClause.outline : CaseClause → Outline
  | .case info values body =>
    .record "CaseClause" (info.fields ++
      [("values", .present (.list (outlineExprs values))), ("body", body.outline)])
  | .default info body =>
    .record "CaseClause" (info.fields ++ [("values", .absent), ("body", body.outline)])

def outlineClauses : List CaseClause → List Outline
  | [] => []
  | c :: cs => c.outline :: outlineClauses cs

def Decl.outline : Decl → Outline
  | .types specs => .variant "Type" [.list (outlineTypeSpecs specs)]
  | .vars specs => .variant "Var" [.list (outlineValueSpecs specs)]
  | .consts specs => .variant "Const" [.list (outlineValueSpecs specs)]

def TypeSpec.outline : TypeSpec → Outline
  | ⟨info, name, isAlias, ty⟩ =>
    .record "TypeSpec" (info.fields ++
      [("name", name.outline), ("alias", .flag isAlias), ("ty", ty.outline)])

def outlineTypeSpecs : List TypeSpec → List Outline
  | [] => []
  | s :: ss => s.outline :: outlineTypeSpecs ss

def ValueSpec.outline : ValueSpec → Outline
  | ⟨info, names, ty, values⟩ =>
    .record "ValueSpec" (info.fields ++
      [("names", .list (names.map Ident.outline)), ("ty", outlineType? ty),
       ("values", .list (outlineExprs values))])

def outlineValueSpecs : List ValueSpec → List Outline
  | [] => []
  | s :: ss => s.outline :: outlineValueSpecs ss

end

def FuncDecl.outline (f : FuncDecl) : Outline :=
  .record "FuncDecl" (f.info.fields ++
    [("recv", Outline.ofOption (f.recv.map Field.outline)), ("name", f.name.outline),
     ("sig", f.sig.outline), ("body", Outline.ofOption (f.body.map Block.outline))])

def TopDecl.outline : TopDecl → Outline
  | .func f => .variant "Func" [f.outline]
  | .decl d => d.outline

def Import.outline (i : Import) : Outline :=
  .record "Import" (i.info.fields ++
    [("alias", Outline.ofOption (i.rename.map Ident.outline)), ("path", .text i.path)])

def File.outline (file : File) : Outline :=
  .record "File"
    [("package", file.package.outline), ("imports", .list (file.imports.map Import.outline)),
     ("decls", .list (file.decls.map TopDecl.outline)), ("span", file.span.outline)]

end CheckHandle
