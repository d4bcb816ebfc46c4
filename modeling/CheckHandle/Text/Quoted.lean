import CheckHandle.Text.Visible

/-!
# Quoted characters and texts

How a character or a text is shown to the reader: between quotes, with an
escape for the quote itself, for the backslash and for what cannot be seen.
-/

namespace CheckHandle.Text

/-- Lower-case hexadecimal digits of `n`. -/
def hexDigits (n : Nat) : String :=
  String.ofList (Nat.toDigits 16 n)

/-- The form of `c` inside quotes of the kind `quote`. -/
def escapeChar (quote c : Char) : String :=
  match c with
  | '\x00' => "\\0"
  | '\t' => "\\t"
  | '\r' => "\\r"
  | '\n' => "\\n"
  | '\\' => "\\\\"
  | _ =>
    if c == quote then String.ofList ['\\', c]
    else if isVisible c then String.singleton c
    else "\\u" ++ String.singleton '{' ++ hexDigits c.toNat ++ String.singleton '}'

/-- A character between single quotes. -/
def quoteChar (c : Char) : String :=
  "'" ++ escapeChar '\'' c ++ "'"

/-- A text between double quotes. -/
def quoteText (s : String) : String :=
  "\"" ++ s.toList.foldl (fun out c => out ++ escapeChar '"' c) "" ++ "\""

end CheckHandle.Text
