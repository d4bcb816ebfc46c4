import CheckHandle.Failure
import CheckHandle.Text.Blank
import CheckHandle.Text.Numeric
import CheckHandle.Token

/-!
# From text to tokens

Scanning has two layers. `lex` cuts the text into pieces (blanks, newlines,
comments, lexemes) that together are the text, up to the first character where
no piece starts. `scan` turns the pieces into tokens: it drops what separates
lexemes and puts an automatic semicolon where a line ends after a token that
may end one.
-/

namespace CheckHandle

open Text

/-- A stretch of source text. -/
inductive Piece where
  | blank (c : Char)
  | newline
  | lineComment (text : List Char)
  | blockComment (text : List Char)
  | lexeme (kind : TokenKind) (text : List Char)
deriving DecidableEq, Inhabited

namespace Piece

/-- The text that the piece covers. -/
def text : Piece → List Char
  | .blank c => [c]
  | .newline => ['\n']
  | .lineComment text | .blockComment text | .lexeme _ text => text

end Piece

/-- Why no piece starts at some character, with the text it would cover. -/
structure LexFault where
  cause : Cause
  text : List Char
deriving DecidableEq, Inhabited

namespace Lexer

/-- The text up to and including the closing `quote`, which may be escaped by a
backslash, and whether it was found before the line or the text ends. -/
def quoted (quote : Char) : List Char → List Char × Bool
  | [] => ([], false)
  | ['\\'] => (['\\'], false)
  | '\\' :: c :: cs =>
    let (text, closed) := quoted quote cs
    ('\\' :: c :: text, closed)
  | c :: cs =>
    if c == '\n' then ([], false)
    else if c == quote then ([c], true)
    else
      let (text, closed) := quoted quote cs
      (c :: text, closed)

/-- The text up to and including the first `quote`, if there is one. -/
def rawQuoted (quote : Char) : List Char → Option (List Char)
  | [] => none
  | c :: cs => if c == quote then some [c] else (rawQuoted quote cs).map (c :: ·)

/-- The text up to and including the first end of a block comment. -/
def commentBody : List Char → Option (List Char)
  | [] => none
  | '*' :: '/' :: _ => some ['*', '/']
  | c :: cs => (commentBody cs).map (c :: ·)

/-- Digits, points and exponents, and whether they make a floating-point number. -/
def digits : List Char → List Char × Bool
  | [] => ([], false)
  | c :: cs =>
    if c.isDigit || c == '_' then
      let (text, float) := digits cs
      (c :: text, float)
    else if c == '.' then
      (c :: (digits cs).1, true)
    else if c == 'e' || c == 'E' then
      match cs with
      | '+' :: rest => (c :: '+' :: (digits rest).1, true)
      | '-' :: rest => (c :: '-' :: (digits rest).1, true)
      | rest => (c :: (digits rest).1, true)
    else ([], false)

def isHexDigit (c : Char) : Bool :=
  c.isDigit || ('a' ≤ c && c ≤ 'f') || ('A' ≤ c && c ≤ 'F')

/-- The number at the head of the text and its class. -/
def number : List Char → TokenKind × List Char
  | '0' :: 'x' :: cs => (.int, '0' :: 'x' :: cs.takeWhile fun c => isHexDigit c || c == '_')
  | '0' :: 'X' :: cs => (.int, '0' :: 'X' :: cs.takeWhile fun c => isHexDigit c || c == '_')
  | cs =>
    let (text, float) := digits cs
    match cs.drop text.length with
    | 'i' :: _ => (.imag, text ++ ['i'])
    | _ => (if float then .float else .int, text)

def isIdentStart (c : Char) : Bool :=
  isAlphabetic c || c == '_'

def isIdentRest (c : Char) : Bool :=
  isAlphanumeric c || c == '_'

/-- The class of a word. -/
def wordKind (text : List Char) : TokenKind :=
  if String.ofList text ∈ Token.keywords then .keyword else .ident

/-- A quoted literal whose opening quote is `quote`. -/
def quotedPiece (quote : Char) (kind : TokenKind) (literal : Enclosed) (cs : List Char) :
    Except LexFault Piece :=
  let (text, closed) := quoted quote cs
  if closed then .ok (.lexeme kind (quote :: text))
  else .error ⟨.unterminated literal, quote :: text⟩

/-- The longest operator at the head of the text. -/
def operator? (cs : List Char) : Option (List Char) :=
  (Token.operators.map String.toList).find? (·.isPrefixOf cs)

/-- The token at the head of `c :: cs`, where no gap stands. -/
def lexeme (c : Char) (cs : List Char) : Except LexFault Piece :=
  if isIdentStart c then
    let text := c :: cs.takeWhile isIdentRest
    .ok (.lexeme (wordKind text) text)
  else if c.isDigit || (c == '.' && cs.head?.any Char.isDigit) then
    let (kind, text) := number (c :: cs)
    .ok (.lexeme kind text)
  else if c == '"' then quotedPiece c .string .string cs
  else if c == '\'' then quotedPiece c .rune .rune cs
  else if c == '\x60' then
    match rawQuoted c cs with
    | some text => .ok (.lexeme .string (c :: text))
    | none => .error ⟨.unterminated .rawString, c :: cs⟩
  else
    match operator? (c :: cs) with
    | some [';'] => .ok (.lexeme (.semicolon false) [';'])
    | some text => .ok (.lexeme .operator text)
    | none => .error ⟨.illegalCharacter c, [c]⟩

/-- The piece at the head of `c :: cs`. -/
def piece (c : Char) (cs : List Char) : Except LexFault Piece :=
  if c == '\n' then .ok .newline
  else if isGap c then .ok (.blank c)
  else
    match c, cs with
    | '/', '/' :: _ => .ok (.lineComment (c :: cs.takeWhile (· != '\n')))
    | '/', '*' :: rest =>
      match commentBody rest with
      | some body => .ok (.blockComment ('/' :: '*' :: body))
      | none => .error ⟨.unterminated .blockComment, c :: cs⟩
    | _, _ => lexeme c cs

/-- The pieces of the text after its first `skip` characters. -/
def lexFrom : Nat → List Char → List Piece × Option LexFault
  | _, [] => ([], none)
  | skip + 1, _ :: cs => lexFrom skip cs
  | 0, c :: cs =>
    match piece c cs with
    | .error fault => ([], some fault)
    | .ok p =>
      let (ps, fault) := lexFrom (p.text.length - 1) cs
      (p :: ps, fault)

end Lexer

/-- The pieces of a text, up to the first fault. -/
def lex (text : List Char) : List Piece × Option LexFault :=
  Lexer.lexFrom 0 text

/-- The tokens of a text, up to the first fault. The last token of a text
without fault is its end. -/
structure Scan where
  tokens : List Token
  fault : Option Fault
deriving Inhabited

namespace Scan

/-- All tokens, if there is no fault. -/
def toExcept (s : Scan) : Except Fault (List Token) :=
  match s.fault with
  | none => .ok s.tokens
  | some fault => .error fault

end Scan

/-- Whether marked code is read: there the markers never end a line. -/
inductive ScanMode where
  | plain
  | marked
deriving DecidableEq, Inhabited

def ScanMode.quiet : ScanMode → List String
  | .plain => []
  | .marked => [MarkerKind.check.keyword, MarkerKind.handle.keyword]

/-- The automatic semicolon at an offset. -/
def autoSemicolon (offset : Nat) : Token :=
  ⟨.semicolon true, "", ⟨offset, offset⟩⟩

/-- A line ends inside the piece. -/
def Piece.breaksLine : Piece → Bool
  | .newline | .lineComment _ => true
  | .blockComment text => text.contains '\n'
  | .blank _ | .lexeme .. => false

/-- The tokens of the pieces from `offset` on. `pending` says that the last
token may end a line. -/
def scanFrom (quiet : List String) (offset : Nat) (pending : Bool) (fault : Option LexFault) :
    List Piece → Scan
  | [] =>
    match fault with
    | some f => ⟨[], some ⟨f.cause, ⟨offset, offset + byteLength f.text⟩, false⟩⟩
    | none =>
      let last : Token := ⟨.endOfText, "", ⟨offset, offset⟩⟩
      ⟨if pending then [autoSemicolon offset, last] else [last], none⟩
  | p :: ps =>
    let stop := offset + byteLength p.text
    match p with
    | .lexeme kind text =>
      let t : Token := ⟨kind, String.ofList text, ⟨offset, stop⟩⟩
      let rest := scanFrom quiet stop (t.endsLine quiet) fault ps
      { rest with tokens := t :: rest.tokens }
    | _ =>
      if pending && p.breaksLine then
        let rest := scanFrom quiet stop false fault ps
        { rest with tokens := autoSemicolon offset :: rest.tokens }
      else scanFrom quiet stop pending fault ps

/-- The tokens of a text. -/
def scan (mode : ScanMode) (text : String) : Scan :=
  let (pieces, fault) := lex text.toList
  scanFrom mode.quiet 0 false fault pieces

end CheckHandle
