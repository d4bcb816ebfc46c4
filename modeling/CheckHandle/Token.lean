import CheckHandle.Span

/-!
# Tokens

Identifiers, literals, operators and semicolons, with the rules that need no
more than one token: which words are keywords, which tokens may end a line,
which end an expression, and how delimiters are counted.
-/

namespace CheckHandle

/-- The class of a token. An automatic semicolon stands for a line end. -/
inductive TokenKind where
  | ident
  | keyword
  | int
  | float
  | imag
  | rune
  | string
  | operator
  | semicolon (auto : Bool)
  | endOfText
deriving DecidableEq, Inhabited

structure Token where
  kind : TokenKind
  text : String
  span : Span
deriving DecidableEq, Inhabited

namespace Token

/-- Words that are never identifiers. `check` and `handle` are not among them. -/
def keywords : List String :=
  ["break", "case", "chan", "const", "continue", "default", "defer", "else",
   "fallthrough", "for", "func", "go", "goto", "if", "import", "interface", "map",
   "package", "range", "return", "select", "struct", "switch", "type", "var"]

/-- Operators and delimiters, longer ones first. -/
def operators : List String :=
  ["<<=", ">>=", "&^=", "...", "&&", "||", "<-", "++", "--", "==", "!=", "<=", ">=", ":=",
   "+=", "-=", "*=", "/=", "%=", "&=", "|=", "^=", "<<", ">>", "&^", "+", "-", "*", "/", "%",
   "&", "|", "^", "<", ">", "=", "!", "(", ")", "[", "]", "\x7b", "\x7d", ",", ";", ".", ":",
   "~"]

/-- The opening brace, as text. -/
def openBrace : String := String.singleton '{'

/-- The closing brace, as text. -/
def closeBrace : String := String.singleton '}'

def isOperator (t : Token) (text : String) : Bool :=
  t.kind == .operator && t.text == text

def isIdent (t : Token) (name : String) : Bool :=
  t.kind == .ident && t.text == name

/-- The token ends an expression when no delimiter is open. -/
def endsExpr (t : Token) : Bool :=
  match t.kind with
  | .semicolon _ | .endOfText => true
  | .operator => t.text ∈ [",", ":", ")", "]", closeBrace]
  | _ => false

/-- A line may end after the token, so that a semicolon is understood there.
The words in `quiet` never end a line. -/
def endsLine (quiet : List String) (t : Token) : Bool :=
  match t.kind with
  | .ident => t.text ∉ quiet
  | .int | .float | .imag | .rune | .string => true
  | .keyword => t.text ∈ ["break", "continue", "fallthrough", "return"]
  | .operator => t.text ∈ ["++", "--", ")", "]", closeBrace]
  | .semicolon _ | .endOfText => false

end Token

/-- How many delimiters of each kind are open. The kinds are counted apart, and
a surplus of closing ones makes a count negative. -/
structure Depth where
  parens : Int := 0
  brackets : Int := 0
  braces : Int := 0
deriving DecidableEq, Inhabited

namespace Depth

def isZero (d : Depth) : Bool :=
  d == {}

def isNegative (d : Depth) : Bool :=
  d.parens < 0 || d.brackets < 0 || d.braces < 0

/-- The depth after the token. -/
def after (d : Depth) (t : Token) : Depth :=
  if t.kind != .operator then d
  else if t.text == "(" then { d with parens := d.parens + 1 }
  else if t.text == ")" then { d with parens := d.parens - 1 }
  else if t.text == "[" then { d with brackets := d.brackets + 1 }
  else if t.text == "]" then { d with brackets := d.brackets - 1 }
  else if t.text == Token.openBrace then { d with braces := d.braces + 1 }
  else if t.text == Token.closeBrace then { d with braces := d.braces - 1 }
  else d

end Depth

end CheckHandle
