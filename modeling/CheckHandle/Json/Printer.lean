import CheckHandle.Json.Basic

/-!
# Writing JSON

Indented by two blanks, every item on a line of its own.
-/

namespace CheckHandle.Json

/-- Four hexadecimal digits. -/
def hex4 (n : Nat) : List Char :=
  let digits := Nat.toDigits 16 n
  List.replicate (4 - digits.length) '0' ++ digits

def escapeChar (c : Char) : List Char :=
  match c with
  | '"' => ['\\', '"']
  | '\\' => ['\\', '\\']
  | '\x08' => ['\\', 'b']
  | '\x0c' => ['\\', 'f']
  | '\n' => ['\\', 'n']
  | '\r' => ['\\', 'r']
  | '\t' => ['\\', 't']
  | c => if c.toNat < 0x20 then '\\' :: 'u' :: hex4 c.toNat else [c]

def quote (s : String) : String :=
  "\"" ++ String.ofList (s.toList.flatMap escapeChar) ++ "\""

/-- A new line at depth `n`. -/
def newline (n : Nat) : String :=
  "\n" ++ String.ofList (List.replicate (2 * n) ' ')

/-- Items between brackets, one a line; nothing between the brackets if there
are none. -/
def bracket (n : Nat) (opening closing : String) : List String → String
  | [] => opening ++ closing
  | items =>
    opening ++ ",".intercalate (items.map fun s => newline (n + 1) ++ s) ++ newline n ++ closing

mutual

def render (n : Nat) : Json → String
  | .null => "null"
  | .bool b => if b then "true" else "false"
  | .number text => text
  | .string s => quote (s.getD "")
  | .array items => bracket n "[" "]" (renderItems (n + 1) items)
  | .object members => bracket n "\x7b" "\x7d" (renderMembers (n + 1) members)

def renderItems (n : Nat) : List Json → List String
  | [] => []
  | x :: xs => x.render n :: renderItems n xs

def renderMembers (n : Nat) : List (JsonText × Json) → List String
  | [] => []
  | (name, x) :: xs => (quote (name.getD "") ++ ": " ++ x.render n) :: renderMembers n xs

end

def print (j : Json) : String := j.render 0

end CheckHandle.Json
