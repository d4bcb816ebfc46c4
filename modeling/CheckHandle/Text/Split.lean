/-!
# Splitting a text at a character
-/

namespace CheckHandle.Text

/-- The parts between the separators; one part more than there are separators. -/
def splitChars (separator : Char) : List Char → List (List Char)
  | [] => [[]]
  | c :: cs =>
    if c == separator then [] :: splitChars separator cs
    else match splitChars separator cs with
      | [] => [[c]]
      | part :: parts => (c :: part) :: parts

def split (separator : Char) (text : String) : List String :=
  (splitChars separator text.toList).map String.ofList

/-- The lines of a text. A text that ends in a line break has an empty last
line. -/
def lines (text : String) : List String :=
  split '\n' text

end CheckHandle.Text
