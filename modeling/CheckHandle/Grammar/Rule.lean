/-!
# Grammar rules

The rules of the host grammar, in the order in which they are listed to the
user. A rule named for a header holds inside the header of an `if`, `for` or
`switch`, where a brace after a type name starts the block of the statement
rather than a literal.
-/

namespace CheckHandle

inductive Rule where
  | endOfInput
  | keyword
  | ident
  | kwBreak
  | kwCase
  | kwConst
  | kwContinue
  | kwDefault
  | kwDefer
  | kwElse
  | kwFallthrough
  | kwFor
  | kwFunc
  | kwGo
  | kwIf
  | kwImport
  | kwInterface
  | kwMap
  | kwPackage
  | kwRange
  | kwReturn
  | kwStruct
  | kwSwitch
  | kwType
  | kwVar
  | imagLit
  | floatLit
  | intLit
  | runeLit
  | stringLit
  | ellipsis
  | file
  | packageClause
  | importDecl
  | importSpec
  | funcDecl
  | receiver
  | varDecl
  | varSpec
  | constDecl
  | constSpec
  | typeDecl
  | typeSpec
  | aliasEq
  | identList
  | signature
  | params
  | param
  | results
  | typeOnly
  | typeExpr
  | typeName
  | pointerType
  | sliceType
  | arrayType
  | mapType
  | funcType
  | structType
  | fieldDecl
  | embeddedField
  | interfaceType
  | ifaceElem
  | methodSpec
  | typeOperand
  | exprList
  | headerExprList
  | expr
  | headerExpr
  | unaryExpr
  | headerUnaryExpr
  | unaryOp
  | binaryOp
  | primaryExpr
  | headerPrimaryExpr
  | compositeLit
  | funcLit
  | parenExpr
  | selectorSuffix
  | typeAssertSuffix
  | indexSuffix
  | sliceSuffix
  | sliceLo
  | sliceHi
  | sliceMax
  | callSuffix
  | litSuffix
  | litBody
  | element
  | block
  | caseBody
  | assignStmt
  | headerAssignStmt
  | assignOp
  | incdecStmt
  | headerIncdecStmt
  | incdecOp
  | exprStmt
  | headerExprStmt
  | declStmt
  | returnStmt
  | goStmt
  | deferStmt
  | branchStmt
  | ifStmt
  | ifInit
  | forStmt
  | rangeClause
  | rangeOp
  | forClause
  | forInit
  | forCond
  | forPost
  | switchStmt
  | switchInit
  | switchTag
  | caseClause
deriving DecidableEq, Inhabited

namespace Rule

/-- The name of the rule. -/
def name : Rule → String
  | endOfInput => "EOI"
  | keyword => "keyword"
  | ident => "ident"
  | kwBreak => "kw_break"
  | kwCase => "kw_case"
  | kwConst => "kw_const"
  | kwContinue => "kw_continue"
  | kwDefault => "kw_default"
  | kwDefer => "kw_defer"
  | kwElse => "kw_else"
  | kwFallthrough => "kw_fallthrough"
  | kwFor => "kw_for"
  | kwFunc => "kw_func"
  | kwGo => "kw_go"
  | kwIf => "kw_if"
  | kwImport => "kw_import"
  | kwInterface => "kw_interface"
  | kwMap => "kw_map"
  | kwPackage => "kw_package"
  | kwRange => "kw_range"
  | kwReturn => "kw_return"
  | kwStruct => "kw_struct"
  | kwSwitch => "kw_switch"
  | kwType => "kw_type"
  | kwVar => "kw_var"
  | imagLit => "imag_lit"
  | floatLit => "float_lit"
  | intLit => "int_lit"
  | runeLit => "rune_lit"
  | stringLit => "string_lit"
  | ellipsis => "ellipsis"
  | file => "file"
  | packageClause => "package_clause"
  | importDecl => "import_decl"
  | importSpec => "import_spec"
  | funcDecl => "func_decl"
  | receiver => "receiver"
  | varDecl => "var_decl"
  | varSpec => "var_spec"
  | constDecl => "const_decl"
  | constSpec => "const_spec"
  | typeDecl => "type_decl"
  | typeSpec => "type_spec"
  | aliasEq => "alias_eq"
  | identList => "ident_list"
  | signature => "signature"
  | params => "params"
  | param => "param"
  | results => "results"
  | typeOnly => "type_only"
  | typeExpr => "type_expr"
  | typeName => "type_name"
  | pointerType => "pointer_type"
  | sliceType => "slice_type"
  | arrayType => "array_type"
  | mapType => "map_type"
  | funcType => "func_type"
  | structType => "struct_type"
  | fieldDecl => "field_decl"
  | embeddedField => "embedded_field"
  | interfaceType => "interface_type"
  | ifaceElem => "iface_elem"
  | methodSpec => "method_spec"
  | typeOperand => "type_operand"
  | exprList => "expr_list"
  | headerExprList => "expr_list_nc"
  | expr => "expr"
  | headerExpr => "expr_nc"
  | unaryExpr => "unary_expr"
  | headerUnaryExpr => "unary_expr_nc"
  | unaryOp => "unary_op"
  | binaryOp => "binary_op"
  | primaryExpr => "primary_expr"
  | headerPrimaryExpr => "primary_expr_nc"
  | compositeLit => "composite_lit"
  | funcLit => "func_lit"
  | parenExpr => "paren_expr"
  | selectorSuffix => "selector_suffix"
  | typeAssertSuffix => "type_assert_suffix"
  | indexSuffix => "index_suffix"
  | sliceSuffix => "slice_suffix"
  | sliceLo => "slice_lo"
  | sliceHi => "slice_hi"
  | sliceMax => "slice_max"
  | callSuffix => "call_suffix"
  | litSuffix => "lit_suffix"
  | litBody => "lit_body"
  | element => "element"
  | block => "block"
  | caseBody => "case_body"
  | assignStmt => "assign_stmt"
  | headerAssignStmt => "assign_stmt_nc"
  | assignOp => "assign_op"
  | incdecStmt => "incdec_stmt"
  | headerIncdecStmt => "incdec_stmt_nc"
  | incdecOp => "incdec_op"
  | exprStmt => "expr_stmt"
  | headerExprStmt => "expr_stmt_nc"
  | declStmt => "decl_stmt"
  | returnStmt => "return_stmt"
  | goStmt => "go_stmt"
  | deferStmt => "defer_stmt"
  | branchStmt => "branch_stmt"
  | ifStmt => "if_stmt"
  | ifInit => "if_init"
  | forStmt => "for_stmt"
  | rangeClause => "range_clause"
  | rangeOp => "range_op"
  | forClause => "for_clause"
  | forInit => "for_init"
  | forCond => "for_cond"
  | forPost => "for_post"
  | switchStmt => "switch_stmt"
  | switchInit => "switch_init"
  | switchTag => "switch_tag"
  | caseClause => "case_clause"

/-- What the user is told to write where the rule could have matched. -/
def describe : Rule → String
  | endOfInput => "end of input"
  | ident => "identifier"
  | expr | headerExpr | exprList | headerExprList => "expression"
  | typeExpr => "type"
  | block => "block"
  | params => "parameter list"
  | binaryOp | assignOp | incdecOp => "operator"
  | r => String.ofList (r.name.toList.map fun c => if c == '_' then ' ' else c)

/-- The word of a keyword rule. -/
def word? : Rule → Option String
  | kwBreak => some "break"
  | kwCase => some "case"
  | kwConst => some "const"
  | kwContinue => some "continue"
  | kwDefault => some "default"
  | kwDefer => some "defer"
  | kwElse => some "else"
  | kwFallthrough => some "fallthrough"
  | kwFor => some "for"
  | kwFunc => some "func"
  | kwGo => some "go"
  | kwIf => some "if"
  | kwImport => some "import"
  | kwInterface => some "interface"
  | kwMap => some "map"
  | kwPackage => some "package"
  | kwRange => some "range"
  | kwReturn => some "return"
  | kwStruct => some "struct"
  | kwSwitch => some "switch"
  | kwType => some "type"
  | kwVar => some "var"
  | _ => none

/-- Keywords and the end of the input leave nothing in a parse tree. -/
def isSilent (r : Rule) : Bool :=
  r == endOfInput || r.word?.isSome

/-- Rules that match without gaps, as one token. -/
def isToken : Rule → Bool
  | keyword | ident | imagLit | floatLit | intLit | runeLit | stringLit => true
  | r => r.word?.isSome

/-- The position of the rule in the grammar. -/
def order (r : Rule) : Nat := r.ctorIdx

end Rule

end CheckHandle
