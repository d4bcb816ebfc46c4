import CheckHandle.Grammar.Rule
import CheckHandle.Text.Numeric

/-!
# Patterns

Parsing expressions over characters and rules. Alternatives are ordered: the
first that matches is taken, and the others are not tried again.
-/

namespace CheckHandle

/-- Classes of characters that the grammar names. -/
inductive CharClass where
  | alphabetic
  | decimal
  | asciiDigit
  | hexDigit
  | binDigit
  | octDigit
deriving DecidableEq, Inhabited

def CharClass.contains : CharClass → Char → Bool
  | .alphabetic, c => Text.isLaterAlphabetic c
  | .decimal, c => Text.isDecimal c
  | .asciiDigit, c => c.isDigit
  | .hexDigit, c => c.isDigit || ('a' ≤ c && c ≤ 'f') || ('A' ≤ c && c ≤ 'F')
  | .binDigit, c => c == '0' || c == '1'
  | .octDigit, c => '0' ≤ c && c ≤ '7'

inductive Pattern where
  /-- Matches nothing and succeeds. -/
  | empty
  | lit (text : List Char)
  | one (charClass : CharClass)
  | any
  /-- The start of the input. -/
  | start
  /-- The end of the input. -/
  | finish
  | rule (r : Rule)
  | seq (first second : Pattern)
  | alt (first second : Pattern)
  | opt (p : Pattern)
  | star (p : Pattern)
  /-- Succeeds without matching anything where `p` fails. -/
  | not (p : Pattern)
deriving Inhabited

namespace Pattern

/-- One pattern after the other. -/
def all : List Pattern → Pattern
  | [] => .empty
  | [p] => p
  | p :: q :: ps => .seq p (all (q :: ps))

/-- The first pattern that matches. -/
def oneOf : List Pattern → Pattern
  | [] => .not .empty
  | [p] => p
  | p :: q :: ps => .alt p (oneOf (q :: ps))

/-- A fixed text. -/
def text (s : String) : Pattern := .lit s.toList

/-- The first of several texts that matches. -/
def texts (ss : List String) : Pattern := oneOf (ss.map text)

/-- One or more. -/
def plus (p : Pattern) : Pattern := .seq p (.star p)

/-- One or more, separated by commas. -/
def list (p : Pattern) : Pattern := .seq p (.star (.seq (text ",") p))

end Pattern

end CheckHandle
