import CheckHandle.Token.Lexer

/-!
# Explicit layout

A copy of the text of the same length in which every separator is a space or a
newline and every automatic semicolon before the end is written out. Offsets
into the copy are offsets into the text.
-/

namespace CheckHandle

open Text

/-- Spaces in place of everything but newlines, byte for byte. -/
def blankOut : List Char → List Char
  | [] => []
  | c :: cs =>
    (if c == '\n' then ['\n'] else List.replicate c.utf8Size ' ') ++ blankOut cs

/-- The layout of the pieces. `pending` says that the last token may end a line. -/
def layoutFrom (pending : Bool) : List Piece → List Char
  | [] => []
  | p :: ps =>
    match p with
    | .lexeme kind text =>
      let t : Token := ⟨kind, String.ofList text, {}⟩
      text ++ layoutFrom (t.endsLine []) ps
    | _ =>
      if pending && p.breaksLine then
        ';' :: (blankOut p.text).tail ++ layoutFrom false ps
      else blankOut p.text ++ layoutFrom pending ps

/-- The text with explicit layout. -/
def layout (text : String) : Except Fault String :=
  let (pieces, _) := lex text.toList
  match (scan .plain text).fault with
  | some fault => .error fault
  | none => .ok (String.ofList (layoutFrom false pieces))

end CheckHandle
