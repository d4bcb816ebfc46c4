import CheckHandle.Text.Split

/-!
# Comparing two texts line by line

The lines that both texts share, in order, divide the comparison into hunks:
lines that stay, lines that go and lines that come.
-/

namespace CheckHandle.Text

section Common

variable {α : Type} [BEq α]

/-- How much of the first text, up to its item `x`, and of the second, up to
each of its items, is common at most. `above` is the same without `x`; `left`
and `corner` are the numbers beside and above-beside the first result. -/
def commonLengths (x : α) (left corner : Nat) : List α → (above : List Nat) → List Nat
  | [], _ => []
  | y :: ys, above =>
    let up := above.headD 0
    let here := if x == y then corner + 1 else max left up
    here :: commonLengths x here up ys above.tail

/-- Each item of the first text with its common lengths, the last item first. -/
def lengthTable (ys : List α) : (above : List (α × List Nat)) → List α → List (α × List Nat)
  | above, [] => above
  | above, x :: xs =>
    let row := commonLengths x 0 0 ys ((above.head?.map Prod.snd).getD [])
    lengthTable ys ((x, row) :: above) xs

/-- Goes back over items of the second text, given last first with the common
lengths at `x` and above it, until one is `x` or going back would lose more
than giving up `x`. Beside the first item stands the last length of the line
above, `wrap`; without a line above there is nothing to give up. -/
def backToward (x : α) (wrap : Option Nat) :
    List α → (row above : List Nat) → List α
  | [], _, _ => []
  | y :: ys, row, above =>
    if x == y then y :: ys
    else match wrap with
      | none => backToward x wrap ys row.tail above.tail
      | some last =>
        if row.tail.headD last > above.headD 0 then backToward x wrap ys row.tail above.tail
        else y :: ys

/-- The common items, last first, of a text given by its table and of a second
text `ys`, given last first. -/
def commonFrom : (table : List (α × List Nat)) → (ys : List α) → List α
  | [], _ => []
  | (x, row) :: table, ys =>
    let above := table.head?.map Prod.snd
    let back (r : List Nat) : List Nat := (r.take ys.length).reverse
    match backToward x (above.map fun r => r.getLastD 0) ys (back row) (back (above.getD [])) with
    | [] => []
    | y :: rest =>
      if x == y then x :: commonFrom table rest
      else commonFrom table (y :: rest)

/-- A longest list of items that stand in both texts in this order. -/
def commonItems (xs ys : List α) : List α :=
  (commonFrom (lengthTable ys [] xs) ys.reverse).reverse

end Common

/-- Lines that belong together. -/
inductive Hunk where
  | same (lines : List String)
  | removed (lines : List String)
  | added (lines : List String)
deriving DecidableEq, Inhabited

namespace Hunk

/-- A line that stays, in front of the hunks after it. -/
def consSame (line : String) : List Hunk → List Hunk
  | .same lines :: hunks => .same (line :: lines) :: hunks
  | hunks => .same [line] :: hunks

/-- What lies between two lines that stay. -/
def between (removed added : List String) (rest : List Hunk) : List Hunk :=
  (if removed.isEmpty then [] else [.removed removed]) ++
    (if added.isEmpty then [] else [.added added]) ++ rest

/-- The hunks of two texts whose shared lines are given. -/
def ofCommon (before after : List String) : (common : List String) → List Hunk
  | [] => between before after []
  | line :: common =>
    between (before.takeWhile (· != line)) (after.takeWhile (· != line))
      (consSame line (ofCommon ((before.dropWhile (· != line)).drop 1)
        ((after.dropWhile (· != line)).drop 1) common))

/-- The lines of a hunk as they are shown: without a carriage return where a
line break follows, and without an empty last line. -/
def shown : List String → List String
  | [] => []
  | [line] => if line.isEmpty then [] else [line]
  | line :: lines => dropReturn line :: shown lines
where
  dropReturn (line : String) : String :=
    if line.toList.getLast? == some '\r' then String.ofList line.toList.dropLast else line

/-- A mark in front of every line. -/
def render : Hunk → String
  | .same lines => mark " " lines
  | .removed lines => mark "-" lines
  | .added lines => mark "+" lines
where
  mark (sign : String) (lines : List String) : String :=
    String.join ((shown lines).map fun line => sign ++ line ++ "\n")

end Hunk

/-- The comparison of two texts. -/
def lineDiff (before after : String) : List Hunk :=
  let before := lines before
  let after := lines after
  Hunk.ofCommon before after (commonItems before after)

end CheckHandle.Text
