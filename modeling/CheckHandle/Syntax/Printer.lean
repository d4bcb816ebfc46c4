import CheckHandle.Syntax.Basic

/-!
# Printing syntax trees

Text of the host language, one statement a line, indented by tabs. Parentheses
are added where the shape of an expression asks for them: around a binary
expression that is the operand of a postfix or unary form, or a side of an
operator that binds more strongly.

The functions named `render` take the current depth of indentation.
-/

namespace CheckHandle

/-- A new line at depth `n`. -/
def newline (n : Nat) : String :=
  "\n" ++ String.ofList (List.replicate n '\t')

/-- Texts with commas between them. -/
def commas (texts : List String) : String :=
  ", ".intercalate texts

/-- Each text on a line of its own at depth `n`. -/
def lines (n : Nat) (texts : List String) : String :=
  String.join (texts.map fun s => newline n ++ s)

/-- Lines at depth `n + 1` between braces. -/
def bracedLines (n : Nat) (texts : List String) : String :=
  "\x7b" ++ lines (n + 1) texts ++ newline n ++ "\x7d"

/-- A text in parentheses, if `needed`. -/
def parens (needed : Bool) (s : String) : String :=
  if needed then "(" ++ s ++ ")" else s

def nameList (names : List Ident) : String :=
  commas (names.map Ident.name)

namespace Expr

def isBinary : Expr → Bool
  | .binary .. => true
  | _ => false

/-- The expression is a binary one that binds less strongly than `limit`. -/
def bindsBelow (limit : Nat) : Expr → Bool
  | .binary _ op _ _ => op.precedence < limit
  | _ => false

end Expr

def AssignOp.text : AssignOp → String
  | .assign => "="
  | .define => ":="
  | .compound op => op.text ++ "="

mutual

def TypeExpr.render (n : Nat) : TypeExpr → String
  | .name _ none name => name
  | .name _ (some package) name => package ++ "." ++ name
  | .pointer _ elem => "*" ++ elem.render n
  | .slice _ elem => "[]" ++ elem.render n
  | .array _ none elem => "[...]" ++ elem.render n
  | .array _ (some len) elem => "[" ++ len.render n ++ "]" ++ elem.render n
  | .map _ key value => "map[" ++ key.render n ++ "]" ++ value.render n
  | .func _ sig => "func" ++ sig.render n
  | .struct _ [] => "struct\x7b\x7d"
  | .struct _ fields => "struct " ++ bracedLines n (renderFields (n + 1) fields)
  | .interface _ [] => "interface\x7b\x7d"
  | .interface _ elems => "interface " ++ bracedLines n (renderMembers (n + 1) elems)

def Field.render (n : Nat) : Field → String
  | ⟨_, names, ty, variadic, tag⟩ =>
    (if names.isEmpty then "" else nameList names ++ " ") ++ (if variadic then "..." else "")
      ++ ty.render n
      ++ match tag with
        | none => ""
        | some tag => " " ++ tag

def renderFields (n : Nat) : List Field → List String
  | [] => []
  | f :: fs => f.render n :: renderFields n fs

/-- A line of an interface: a method is written without the word `func`. -/
def Field.renderMember (n : Nat) : Field → String
  | ⟨_, [name], .func _ sig, _, _⟩ => name.name ++ sig.render n
  | ⟨_, _, ty, _, _⟩ => ty.render n

def renderMembers (n : Nat) : List Field → List String
  | [] => []
  | f :: fs => f.renderMember n :: renderMembers n fs

/-- Parameters and results; a single result without a name needs no
parentheses. -/
def Signature.render (n : Nat) : Signature → String
  | ⟨params, results⟩ =>
    "(" ++ commas (renderFields n params) ++ ")"
      ++ match results with
        | [] => ""
        | [⟨_, [], ty, _, _⟩] => " " ++ ty.render n
        | results => " (" ++ commas (renderFields n results) ++ ")"

def Expr.render (n : Nat) : Expr → String
  | .ident _ name => name
  | .lit _ _ text => text
  | .composite _ ty elts =>
    (match ty with
      | none => ""
      | some ty => ty.render n)
      ++ "\x7b" ++ commas (renderExprs n elts) ++ "\x7d"
  | .funcLit _ sig body => "func" ++ sig.render n ++ " " ++ body.render n
  | .paren _ x => "(" ++ x.render n ++ ")"
  | .selector _ x sel => parens x.isBinary (x.render n) ++ "." ++ sel.name
  | .index _ x index => parens x.isBinary (x.render n) ++ "[" ++ index.render n ++ "]"
  | .slice _ x lo hi max =>
    parens x.isBinary (x.render n) ++ "["
      ++ (match lo with
        | none => ""
        | some lo => lo.render n)
      ++ ":"
      ++ (match hi with
        | none => ""
        | some hi => hi.render n)
      ++ (match max with
        | none => ""
        | some max => ":" ++ max.render n)
      ++ "]"
  | .typeAssert _ x ty => parens x.isBinary (x.render n) ++ ".(" ++ ty.render n ++ ")"
  | .call _ fn args ellipsis =>
    parens fn.isBinary (fn.render n) ++ "(" ++ commas (renderExprs n args)
      ++ (if ellipsis then "..." else "") ++ ")"
  | .unary _ op x => op.text ++ parens x.isBinary (x.render n)
  | .binary _ op x y =>
    parens (x.bindsBelow op.precedence) (x.render n) ++ " " ++ op.text ++ " "
      ++ parens (y.bindsBelow (op.precedence + 1)) (y.render n)
  | .keyValue _ key value => key.render n ++ ": " ++ value.render n
  | .type _ ty => ty.render n

def renderExprs (n : Nat) : List Expr → List String
  | [] => []
  | x :: xs => x.render n :: renderExprs n xs

def Block.render (n : Nat) : Block → String
  | ⟨_, stmts⟩ => bracedLines n (renderStmts (n + 1) stmts)

def renderStmts (n : Nat) : List Stmt → List String
  | [] => []
  | s :: ss => s.render n :: renderStmts n ss

def Stmt.render (n : Nat) : Stmt → String
  | .expr _ x => x.render n
  | .assign _ lhs op rhs =>
    commas (renderExprs n lhs) ++ " " ++ op.text ++ " " ++ commas (renderExprs n rhs)
  | .incDec _ x increment => x.render n ++ if increment then "++" else "--"
  | .decl _ d => d.render n
  | .ret _ [] => "return"
  | .ret _ results => "return " ++ commas (renderExprs n results)
  | .cond _ init test body other =>
    "if "
      ++ (match init with
        | none => ""
        | some init => init.render n ++ "; ")
      ++ test.render n ++ " " ++ body.render n
      ++ match other with
        | none => ""
        | some other => " else " ++ other.render n
  | .loop _ none none none body => "for " ++ body.render n
  | .loop _ none (some test) none body => "for " ++ test.render n ++ " " ++ body.render n
  | .loop _ init test post body =>
    "for "
      ++ (match init with
        | none => ""
        | some init => init.render n)
      ++ "; "
      ++ (match test with
        | none => ""
        | some test => test.render n)
      ++ "; "
      ++ (match post with
        | none => ""
        | some post => post.render n)
      ++ " " ++ body.render n
  | .range _ key value define x body =>
    "for "
      ++ (match key with
        | none => ""
        | some key =>
          key.render n
            ++ (match value with
              | none => ""
              | some value => ", " ++ value.render n)
            ++ if define then " := " else " = ")
      ++ "range " ++ x.render n ++ " " ++ body.render n
  | .switch _ init tag clauses =>
    "switch "
      ++ (match init with
        | none => ""
        | some init => init.render n ++ "; ")
      ++ (match tag with
        | none => ""
        | some tag => tag.render n ++ " ")
      ++ "\x7b" ++ lines n (renderClauses n clauses) ++ newline n ++ "\x7d"
  | .block _ body => body.render n
  | .go _ call => "go " ++ call.render n
  | .defer _ call => "defer " ++ call.render n
  | .branch _ kind => kind.text

/-- A clause stands at the depth of its `switch`, its statements one deeper. -/
def CaseClause.render (n : Nat) : CaseClause → String
  | .case _ values ⟨_, stmts⟩ =>
    "case " ++ commas (renderExprs n values) ++ ":" ++ lines (n + 1) (renderStmts (n + 1) stmts)
  | .default _ ⟨_, stmts⟩ => "default:" ++ lines (n + 1) (renderStmts (n + 1) stmts)

def renderClauses (n : Nat) : List CaseClause → List String
  | [] => []
  | c :: cs => c.render n :: renderClauses n cs

/-- A single specification follows its keyword, several are grouped. -/
def Decl.render (n : Nat) : Decl → String
  | .types [spec] => "type " ++ spec.render n
  | .types specs => "type (" ++ lines (n + 1) (renderTypeSpecs (n + 1) specs) ++ newline n ++ ")"
  | .vars [spec] => "var " ++ spec.render n
  | .vars specs => "var (" ++ lines (n + 1) (renderValueSpecs (n + 1) specs) ++ newline n ++ ")"
  | .consts [spec] => "const " ++ spec.render n
  | .consts specs =>
    "const (" ++ lines (n + 1) (renderValueSpecs (n + 1) specs) ++ newline n ++ ")"

def TypeSpec.render (n : Nat) : TypeSpec → String
  | ⟨_, name, isAlias, ty⟩ => name.name ++ (if isAlias then " = " else " ") ++ ty.render n

def renderTypeSpecs (n : Nat) : List TypeSpec → List String
  | [] => []
  | s :: ss => s.render n :: renderTypeSpecs n ss

def ValueSpec.render (n : Nat) : ValueSpec → String
  | ⟨_, names, ty, values⟩ =>
    nameList names
      ++ (match ty with
        | none => ""
        | some ty => " " ++ ty.render n)
      ++ match values with
        | [] => ""
        | values => " = " ++ commas (renderExprs n values)

def renderValueSpecs (n : Nat) : List ValueSpec → List String
  | [] => []
  | s :: ss => s.render n :: renderValueSpecs n ss

end

def TypeExpr.print (t : TypeExpr) : String := t.render 0

def Expr.print (x : Expr) : String := x.render 0

def Stmt.print (s : Stmt) : String := s.render 0

def FuncDecl.print (f : FuncDecl) : String :=
  "func "
    ++ (match f.recv with
      | none => ""
      | some recv => "(" ++ recv.render 0 ++ ") ")
    ++ f.name.name ++ f.sig.render 0
    ++ match f.body with
      | none => ""
      | some body => " " ++ body.render 0

def TopDecl.print : TopDecl → String
  | .func f => f.print
  | .decl d => d.render 0

def Import.print (i : Import) : String :=
  (match i.rename with
    | none => ""
    | some name => name.name ++ " ")
    ++ "\"" ++ i.path ++ "\""

/-- The import declaration of a file: none, a single line or a group. -/
def printImports : List Import → String
  | [] => ""
  | [single] => "\nimport " ++ single.print ++ "\n"
  | many => "\nimport (" ++ lines 1 (many.map Import.print) ++ "\n)\n"

def File.print (file : File) : String :=
  "package " ++ file.package.name ++ "\n" ++ printImports file.imports
    ++ String.join (file.decls.map fun d => "\n" ++ d.print ++ "\n")

end CheckHandle
