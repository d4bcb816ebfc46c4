/-!
# Code point ranges

A character class is a list of closed ranges of code points. Membership is a
linear search: the tables are ordered, but no caller depends on it. Long tables
are written as run lengths, which are packed into numbers.
-/

namespace CheckHandle.Text

/-- `c` lies in one of the closed ranges. -/
def inRanges (ranges : List (Nat × Nat)) (c : Char) : Bool :=
  ranges.any fun r => r.1 ≤ c.toNat && c.toNat ≤ r.2

/-- The ranges from code point `start` on, given how many code points in turn
lie outside and inside the class. -/
def rangesOf (start : Nat) : List Nat → List (Nat × Nat)
  | outside :: inside :: runs =>
    (start + outside, start + outside + inside - 1) :: rangesOf (start + outside + inside) runs
  | _ => []

/-- The lengths that are packed into the lowest `digits` digits of `n`, behind
`length` of which the next digit counts `scale`. The digits in base 16, lowest
first, are those of the lengths in base 8, and 8 is added to all digits of a
length but the last. -/
def runsFrom (digits length scale n : Nat) : List Nat :=
  match digits with
  | 0 => []
  | digits + 1 =>
    if n = 0 then []
    else if n % 16 < 8 then (length + scale * (n % 16)) :: runsFrom digits 0 1 (n / 16)
    else runsFrom digits (length + scale * (n % 16 - 8)) (scale * 8) (n / 16)

/-- The run lengths that are packed into numbers of at most 112 digits. -/
def runsOf (packed : List Nat) : List Nat :=
  packed.flatMap (runsFrom 112 0 1)

end CheckHandle.Text
