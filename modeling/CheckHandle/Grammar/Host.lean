import CheckHandle.Grammar.Pattern

/-!
# The host grammar

The pattern of every rule. The input has explicit layout, so that statements
always end in a semicolon.
-/

namespace CheckHandle

namespace Pattern

def digit : Pattern := .one .asciiDigit

def identStart : Pattern := oneOf [.one .alphabetic, text "_"]

def identRest : Pattern := oneOf [.one .alphabetic, .one .decimal, text "_"]

/-- A word that no identifier character follows. -/
def word (s : String) : Pattern := .seq (text s) (.not identRest)

def decimals : Pattern := .seq digit (.star (oneOf [digit, text "_"]))

def exponent : Pattern := all [texts ["e", "E"], .opt (texts ["+", "-"]), plus digit]

def floatBody : Pattern :=
  oneOf [
    all [decimals, text ".", .opt decimals, .opt exponent],
    all [text ".", decimals, .opt exponent],
    all [decimals, exponent]]

/-- Digits after a base mark, underscores included. -/
def based (marks : List String) (digits : CharClass) : Pattern :=
  all [text "0", texts marks, plus (oneOf [.one digits, text "_"])]

/-- One declaration, or several between parentheses. -/
def grouped (spec : Pattern) : Pattern :=
  oneOf [spec, all [text "(", .star (.seq spec (text ";")), .opt spec, text ")"]]

/-- Entries between braces that end in semicolons; the last may do without. -/
def braced (entry : Pattern) : Pattern :=
  all [text "\x7b", .star (.seq entry (text ";")), .opt entry, text "\x7d"]

/-- A list that may be absent and may end in a comma. -/
def loose (entry : Pattern) : Pattern :=
  .opt (.seq (list entry) (.opt (text ",")))

def topDecl : Pattern :=
  oneOf [.rule .funcDecl, .rule .varDecl, .rule .constDecl, .rule .typeDecl]

/-- Types that may start a composite literal. -/
def literalType : Pattern :=
  oneOf [.rule .sliceType, .rule .arrayType, .rule .mapType, .rule .structType]

def operand : Pattern :=
  oneOf [
    .rule .imagLit, .rule .floatLit, .rule .intLit, .rule .runeLit, .rule .stringLit,
    .rule .compositeLit, .rule .funcLit, .rule .parenExpr, .rule .typeOperand, .rule .ident]

def suffix : Pattern :=
  oneOf [
    .rule .selectorSuffix, .rule .typeAssertSuffix, .rule .indexSuffix, .rule .sliceSuffix,
    .rule .callSuffix]

def elemValue : Pattern := oneOf [.rule .expr, .rule .litBody]

def simpleStmt : Pattern := oneOf [.rule .assignStmt, .rule .incdecStmt, .rule .exprStmt]

def headerSimpleStmt : Pattern :=
  oneOf [.rule .headerAssignStmt, .rule .headerIncdecStmt, .rule .headerExprStmt]

def stmt : Pattern :=
  oneOf [
    .rule .returnStmt, .rule .ifStmt, .rule .forStmt, .rule .switchStmt, .rule .goStmt,
    .rule .deferStmt, .rule .branchStmt, .rule .declStmt, .rule .block, simpleStmt]

/-- Statements that end in semicolons; the last may do without. -/
def stmtList : Pattern := .seq (.opt stmt) (.star (.seq (text ";") (.opt stmt)))

end Pattern

namespace Rule

open Pattern

/-- The pattern of a rule. -/
def body : Rule → Pattern
  | endOfInput => .finish
  -- Tokens
  | keyword =>
    .seq
      (texts ["break", "case", "chan", "const", "continue", "default", "defer", "else",
        "fallthrough", "for", "func", "goto", "go", "if", "import", "interface", "map",
        "package", "range", "return", "select", "struct", "switch", "type", "var"])
      (.not identRest)
  | ident => all [.not (.rule .keyword), identStart, .star identRest]
  | imagLit => all [oneOf [floatBody, decimals], text "i", .not identRest]
  | floatLit => .seq floatBody (.not identRest)
  | intLit =>
    .seq
      (oneOf [based ["x", "X"] .hexDigit, based ["b", "B"] .binDigit, based ["o", "O"] .octDigit,
        decimals])
      (.not identRest)
  | runeLit =>
    all [text "'",
      oneOf [
        all [text "\\", .any, .star (.seq (.not (text "'")) .any)],
        .seq (.not (text "'")) .any],
      text "'"]
  | stringLit =>
    oneOf [
      all [text "\"",
        .star (oneOf [.seq (text "\\") .any, .seq (.not (texts ["\"", "\\", "\n"])) .any]),
        text "\""],
      all [text "\x60", .star (.seq (.not (text "\x60")) .any), text "\x60"]]
  | ellipsis => text "..."
  -- Files and declarations
  | file =>
    all [.start, .star (text ";"),
      .opt (oneOf [.rule .packageClause, .rule .importDecl, topDecl]),
      .star (.seq (text ";") (.opt (oneOf [.rule .importDecl, topDecl]))),
      .rule .endOfInput]
  | packageClause => .seq (.rule .kwPackage) (.rule .ident)
  | importDecl => .seq (.rule .kwImport) (grouped (.rule .importSpec))
  | importSpec => .seq (.opt (.rule .ident)) (.rule .stringLit)
  | funcDecl =>
    all [.rule .kwFunc, .opt (.rule .receiver), .rule .ident, .rule .signature,
      .opt (.rule .block)]
  | receiver => .rule .params
  | varDecl => .seq (.rule .kwVar) (grouped (.rule .varSpec))
  | varSpec =>
    .seq (.rule .identList)
      (oneOf [
        .seq (.rule .typeExpr) (.opt (.seq (text "=") (.rule .exprList))),
        .seq (text "=") (.rule .exprList)])
  | constDecl => .seq (.rule .kwConst) (grouped (.rule .constSpec))
  | constSpec =>
    .seq (.rule .identList)
      (.opt (all [.opt (.rule .typeExpr), text "=", .rule .exprList]))
  | typeDecl => .seq (.rule .kwType) (grouped (.rule .typeSpec))
  | typeSpec => all [.rule .ident, .opt (.rule .aliasEq), .rule .typeExpr]
  | aliasEq => text "="
  | identList => list (.rule .ident)
  | signature => .seq (.rule .params) (.opt (.rule .results))
  | params => all [text "(", loose (.rule .param), text ")"]
  | param =>
    oneOf [
      all [.rule .ident, .opt (.rule .ellipsis), .rule .typeExpr],
      .seq (.opt (.rule .ellipsis)) (.rule .typeExpr)]
  | results => oneOf [.rule .params, .rule .typeExpr]
  -- Types
  | typeOnly => all [.start, .rule .typeExpr, .rule .endOfInput]
  | typeExpr =>
    oneOf [
      .rule .pointerType, .rule .sliceType, .rule .arrayType, .rule .mapType, .rule .funcType,
      .rule .structType, .rule .interfaceType,
      all [text "(", .rule .typeExpr, text ")"],
      .rule .typeName]
  | typeName => .seq (.rule .ident) (.opt (.seq (text ".") (.rule .ident)))
  | pointerType => .seq (text "*") (.rule .typeExpr)
  | sliceType => all [text "[", text "]", .rule .typeExpr]
  | arrayType =>
    all [text "[", oneOf [.rule .ellipsis, .rule .expr], text "]", .rule .typeExpr]
  | mapType =>
    all [.rule .kwMap, text "[", .rule .typeExpr, text "]", .rule .typeExpr]
  | funcType => .seq (.rule .kwFunc) (.rule .signature)
  | structType => .seq (.rule .kwStruct) (braced (.rule .fieldDecl))
  | fieldDecl =>
    .seq
      (oneOf [.seq (.rule .identList) (.rule .typeExpr), .rule .embeddedField])
      (.opt (.rule .stringLit))
  | embeddedField => .seq (.opt (text "*")) (.rule .typeName)
  | interfaceType => .seq (.rule .kwInterface) (braced (.rule .ifaceElem))
  | ifaceElem => oneOf [.rule .methodSpec, .rule .typeName]
  | methodSpec => .seq (.rule .ident) (.rule .signature)
  | typeOperand =>
    oneOf [
      .rule .sliceType, .rule .arrayType, .rule .mapType, .rule .funcType, .rule .structType,
      .rule .interfaceType]
  -- Expressions
  | exprList => list (.rule .expr)
  | headerExprList => list (.rule .headerExpr)
  | expr => .seq (.rule .unaryExpr) (.star (.seq (.rule .binaryOp) (.rule .unaryExpr)))
  | headerExpr =>
    .seq (.rule .headerUnaryExpr) (.star (.seq (.rule .binaryOp) (.rule .headerUnaryExpr)))
  | unaryExpr => .seq (.star (.rule .unaryOp)) (.rule .primaryExpr)
  | headerUnaryExpr => .seq (.star (.rule .unaryOp)) (.rule .headerPrimaryExpr)
  | unaryOp => texts ["-", "+", "!", "^", "*", "&"]
  | binaryOp =>
    texts ["||", "&&", "==", "!=", "<=", ">=", "<<", ">>", "&^", "<", ">", "+", "-", "|", "^",
      "*", "/", "%", "&"]
  | primaryExpr => .seq operand (.star (oneOf [suffix, .rule .litSuffix]))
  | headerPrimaryExpr => .seq operand (.star suffix)
  | compositeLit => .seq literalType (.rule .litBody)
  | funcLit => all [.rule .kwFunc, .rule .signature, .rule .block]
  | parenExpr => all [text "(", .rule .expr, text ")"]
  | selectorSuffix => .seq (text ".") (.rule .ident)
  | typeAssertSuffix => all [text ".", text "(", .rule .typeExpr, text ")"]
  | indexSuffix => all [text "[", .rule .expr, text "]"]
  | sliceSuffix =>
    all [text "[", .opt (.rule .sliceLo), text ":", .opt (.rule .sliceHi),
      .opt (.seq (text ":") (.rule .sliceMax)), text "]"]
  | sliceLo => .rule .expr
  | sliceHi => .rule .expr
  | sliceMax => .rule .expr
  | callSuffix =>
    all [text "(",
      .opt (all [.rule .expr, .star (.seq (text ",") (.rule .expr)), .opt (.rule .ellipsis),
        .opt (text ",")]),
      text ")"]
  | litSuffix => .rule .litBody
  | litBody =>
    all [text "\x7b",
      .opt (all [.rule .element, .star (.seq (text ",") (.rule .element)), .opt (text ",")]),
      text "\x7d"]
  | element => .seq (.opt (.seq elemValue (text ":"))) elemValue
  -- Statements
  | block => all [text "\x7b", stmtList, text "\x7d"]
  | caseBody => stmtList
  | assignStmt => all [.rule .exprList, .rule .assignOp, .rule .exprList]
  | headerAssignStmt => all [.rule .headerExprList, .rule .assignOp, .rule .headerExprList]
  | assignOp =>
    texts [":=", "=", "+=", "-=", "*=", "/=", "%=", "&^=", "&=", "|=", "^=", "<<=", ">>="]
  | incdecStmt => .seq (.rule .expr) (.rule .incdecOp)
  | headerIncdecStmt => .seq (.rule .headerExpr) (.rule .incdecOp)
  | incdecOp => texts ["++", "--"]
  | exprStmt => .rule .expr
  | headerExprStmt => .rule .headerExpr
  | declStmt => oneOf [.rule .varDecl, .rule .constDecl, .rule .typeDecl]
  | returnStmt => .seq (.rule .kwReturn) (.opt (.rule .exprList))
  | goStmt => .seq (.rule .kwGo) (.rule .expr)
  | deferStmt => .seq (.rule .kwDefer) (.rule .expr)
  | branchStmt => oneOf [.rule .kwBreak, .rule .kwContinue, .rule .kwFallthrough]
  | ifStmt =>
    all [.rule .kwIf, .opt (.seq (.rule .ifInit) (text ";")), .rule .headerExpr, .rule .block,
      .opt (.seq (.rule .kwElse) (oneOf [.rule .ifStmt, .rule .block]))]
  | ifInit => headerSimpleStmt
  | forStmt =>
    all [.rule .kwFor, .opt (oneOf [.rule .rangeClause, .rule .forClause, .rule .forCond]),
      .rule .block]
  | rangeClause =>
    all [.opt (.seq (.rule .headerExprList) (.rule .rangeOp)), .rule .kwRange,
      .rule .headerExpr]
  | rangeOp => texts [":=", "="]
  | forClause =>
    all [.opt (.rule .forInit), text ";", .opt (.rule .forCond), text ";", .opt (.rule .forPost)]
  | forInit => headerSimpleStmt
  | forCond => .rule .headerExpr
  | forPost => headerSimpleStmt
  | switchStmt =>
    all [.rule .kwSwitch, .opt (.seq (.rule .switchInit) (text ";")), .opt (.rule .switchTag),
      text "\x7b", .star (.rule .caseClause), text "\x7d"]
  | switchInit => headerSimpleStmt
  | switchTag => .rule .headerExpr
  | caseClause =>
    all [
      oneOf [.seq (.rule .kwCase) (.rule .exprList), .rule .kwDefault],
      text ":", .rule .caseBody]
  -- Words
  | r =>
    match r.word? with
    | some s => word s
    | none => .empty

end Rule

end CheckHandle
