import CheckHandle.Text.Bytes

/-!
# Edits and the offset map

An edit replaces a stretch of the source. Applying a list of edits, ordered and
disjoint, gives the lowered text together with a map from its offsets back to
the source.
-/

namespace CheckHandle

open Text

/-- The bytes from `start` to `stop` become `replacement`. -/
structure Edit where
  start : Nat
  stop : Nat
  replacement : String
deriving DecidableEq, Inhabited

/-- Puts `text` in front of offset `position`. -/
def Edit.insert (position : Nat) (text : String) : Edit :=
  ⟨position, position, text⟩

/-- Where an edit stands in the source and in the lowered text. -/
structure Placement where
  sourceStart : Nat
  sourceStop : Nat
  loweredStart : Nat
  loweredStop : Nat
deriving DecidableEq, Inhabited

/-- The placements of the edits that made a lowered text, in order. -/
structure OffsetMap where
  placements : List Placement := []
deriving DecidableEq, Inhabited

/-- No edit was made. -/
def OffsetMap.isIdentity (m : OffsetMap) : Bool :=
  m.placements.isEmpty

/-- A character of the text starts at offset `n`, or the text ends there. -/
def cutsAt (cs : List Char) (n : Nat) : Bool :=
  byteLength (takeBytes n cs) == n

/-- The first edit that cannot be applied from offset `cursor` on: what is kept
before it cannot be cut out of the source. -/
def misplacedEdit? (source : List Char) (cursor : Nat) : List Edit → Option Edit
  | [] => none
  | e :: es =>
    if cursor ≤ e.start && cutsAt source e.start && cutsAt source e.stop then
      misplacedEdit? source e.stop es
    else some e

/-- Applies `edits` to `source` from offset `cursor` on, which is written from
offset `lowered` on. An edit that ends before it starts repeats what lies
between. -/
def applyEditsFrom (source : List Char) (cursor lowered : Nat) :
    List Edit → List Char × List Placement
  | [] => (dropBytes cursor source, [])
  | e :: es =>
    let kept := sliceBytes cursor e.start source
    let loweredStart := lowered + byteLength kept
    let loweredStop := loweredStart + byteLength e.replacement.toList
    let (text, placed) := applyEditsFrom source e.stop loweredStop es
    (kept ++ e.replacement.toList ++ text,
      ⟨e.start, e.stop, loweredStart, loweredStop⟩ :: placed)

/-- The lowered text and its map. -/
def applyEdits (source : String) (edits : List Edit) : String × OffsetMap :=
  let (text, placed) := applyEditsFrom source.toList 0 0 edits
  (String.ofList text, ⟨placed⟩)

/-- Moves an offset as the end of an edit moves. Offsets are words of 64 bits
and are moved as signed ones: the upper half counts as negative, and what is
negative in the end is zero. -/
def shiftOffset (sourceStop loweredStop offset : Nat) : Nat :=
  (Int.bmod ((offset : Int) + sourceStop - loweredStop) UInt64.size).toNat

/-- The source offset of an offset inside the replacement of an edit. It stops
at the end of the replaced stretch, unless that lies before its start. -/
def Placement.inside (p : Placement) (offset : Nat) : Nat :=
  let distance := offset - p.loweredStart
  if p.sourceStop < p.sourceStart then p.sourceStart + distance
  else p.sourceStart + min distance (p.sourceStop - p.sourceStart)

/-- The source offset of a lowered offset, given the ends of the last edit
before it. -/
def sourceOffsetFrom (sourceStop loweredStop offset : Nat) : List Placement → Nat
  | [] => shiftOffset sourceStop loweredStop offset
  | p :: ps =>
    if offset < p.loweredStart then shiftOffset sourceStop loweredStop offset
    else if offset < p.loweredStop then p.inside offset
    else sourceOffsetFrom p.sourceStop p.loweredStop offset ps

/-- The source offset of an offset of the lowered text. -/
def OffsetMap.toSource (m : OffsetMap) (offset : Nat) : Nat :=
  sourceOffsetFrom 0 0 offset m.placements

end CheckHandle
