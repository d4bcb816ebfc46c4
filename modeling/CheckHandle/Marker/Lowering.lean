import Std.Data.TreeMap
import Std.Data.TreeSet
import CheckHandle.Marker.Names
import CheckHandle.Token.Lexer

/-!
# Lowering the markers

```text
check <expr>               becomes   _go2check(<expr>)
handle <err> { <body> }    becomes   if _go2handle { <body> }
```

where `<err>` is spelled `_go2handleErr` throughout `<body>`. The lowering works
on tokens alone: a checked expression ends at the first token that ends an
expression while no delimiter is open. Along with the text it gives the offset
of every marker and a map from offsets back to the source.
-/

namespace CheckHandle

/-- Where the markers stand in the lowered text. -/
structure Markers where
  /-- Offsets of the wrapping calls. -/
  checks : Std.TreeSet Nat := {}
  /-- Offset of each handler's conditional, with the error identifier. -/
  handles : Std.TreeMap Nat String := {}

namespace Markers

def size (m : Markers) : Nat :=
  m.checks.size + m.handles.size

def isEmpty (m : Markers) : Bool :=
  m.checks.isEmpty && m.handles.isEmpty

end Markers

/-- A marker that an edit puts into the text. -/
inductive Marker where
  | check
  | handle (name : String)
deriving DecidableEq, Inhabited

/-- A source in plain form. -/
structure Lowered where
  text : String
  markers : Markers
  offsets : OffsetMap
  edits : List Edit

/-- A checked expression that is being read. -/
structure OpenCheck where
  depth : Depth := {}
  /-- The expression stands in the header of a statement, so that the brace of
  the statement's block ends it. -/
  inHeader : Bool
deriving DecidableEq, Inhabited

/-- How far a handler has been read. -/
inductive HandleState where
  | idle
  | wantsName (keyword : Token)
  | wantsBrace (keyword name : Token)
  | inBody (name : String) (depth : Depth)
deriving DecidableEq, Inhabited

/-- The state of the lowering between two tokens. -/
structure Lowering where
  /-- Open delimiters outside checks and handlers. -/
  depth : Depth := {}
  /-- Depths at which the header of an `if`, `for` or `switch` is open,
  innermost first. -/
  headers : List Depth := []
  /-- Checks that are being read, innermost first. -/
  checks : List OpenCheck := []
  handler : HandleState := .idle
  /-- The last token was a point. -/
  afterDot : Bool := false
  /-- End of the last token. -/
  lastStop : Nat := 0
  /-- The edits so far, latest first. -/
  edits : List (Edit × Option Marker) := []

namespace Lowering

/-- Records an edit. -/
def emit (s : Lowering) (edit : Edit) (marker : Option Marker) : Lowering :=
  { s with edits := (edit, marker) :: s.edits }

/-- Moves past a token. -/
def consume (s : Lowering) (t : Token) : Lowering :=
  { s with lastStop := t.span.stop, afterDot := t.isOperator "." }

/-- The token is the marker's keyword and not a selector. -/
def isMarker (s : Lowering) (t : Token) (marker : MarkerKind) : Bool :=
  t.isIdent marker.keyword && !s.afterDot

/-- Refuses reserved identifiers. -/
def refuseReserved (t : Token) : Except Fault Unit :=
  if t.kind == .ident && isReserved t.text then
    .error ⟨.reservedIdentifier t.text, t.span, false⟩
  else .ok ()

/-- The token ends the checked expression. -/
def OpenCheck.endsAt (t : Token) (c : OpenCheck) : Bool :=
  c.depth.isZero && (t.endsExpr || (c.inHeader && t.isOperator Token.openBrace))

/-- Closes the checks that end before the token, innermost first. -/
def close (s : Lowering) (t : Token) : Lowering :=
  let ended := (s.checks.takeWhile (OpenCheck.endsAt t)).length
  { s with
    checks := s.checks.dropWhile (OpenCheck.endsAt t)
    edits := List.replicate ended (Edit.insert s.lastStop ")", none) ++ s.edits }

/-- Starts a check at its keyword; `next` is the token after it. -/
def openCheck (s : Lowering) (keyword : Token) (next : Option Token) (inHeader : Bool) :
    Except Fault Lowering :=
  match next with
  | none => .error ⟨.emptyCheck, keyword.span, false⟩
  | some first =>
    if first.endsExpr then .error ⟨.emptyCheck, keyword.span, false⟩
    else
      let s := s.emit ⟨keyword.span.start, first.span.start, checkFunc ++ "("⟩ (some .check)
      .ok ({ s with checks := { inHeader := inHeader } :: s.checks }.consume keyword)

/-- A token outside checks and handlers. -/
def stepPlain (s : Lowering) (t : Token) (next : Option Token) : Except Fault Lowering := do
  refuseReserved t
  if s.isMarker t .check then
    s.openCheck t next (s.headers.head? == some s.depth)
  else if s.isMarker t .handle then
    return { s with handler := .wantsName t }.consume t
  else if t.kind == .keyword && t.text ∈ ["if", "for", "switch"] then
    return { s with headers := s.depth :: s.headers }.consume t
  else
    let headers :=
      if t.isOperator Token.openBrace && s.headers.head? == some s.depth then s.headers.tail
      else s.headers
    return { s with headers := headers, depth := s.depth.after t }.consume t

/-- A token inside the checked expression `c`, the innermost one. -/
def stepCheck (s : Lowering) (c : OpenCheck) (outer : List OpenCheck) (t : Token)
    (next : Option Token) : Except Fault Lowering := do
  refuseReserved t
  if s.isMarker t .check then
    s.openCheck t next (c.inHeader && c.depth.isZero)
  else
    let depth := c.depth.after t
    if depth.isNegative then .error ⟨.mismatchedDelimiters, t.span, false⟩
    else return { s with checks := { c with depth := depth } :: outer }.consume t

/-- A token inside the body of a handler for `name`. -/
def stepBody (s : Lowering) (name : String) (depth : Depth) (t : Token) :
    Except Fault Lowering := do
  refuseReserved t
  if t.kind == .endOfText then .error ⟨.unexpectedEnd .handle, t.span, false⟩
  else if s.isMarker t .check then .error ⟨.nestedInHandler .check, t.span, false⟩
  else if s.isMarker t .handle then .error ⟨.nestedInHandler .handle, t.span, false⟩
  else
    let bound := t.isIdent name && !s.afterDot
    let s := if bound then s.emit ⟨t.span.start, t.span.stop, handleError⟩ none else s
    let depth := depth.after t
    if depth.isNegative then .error ⟨.mismatchedDelimiters, t.span, false⟩
    else
      let handler := if depth.isZero then .idle else .inBody name depth
      return { s with handler := handler }.consume t

/-- The state after a token; `next` is the token after it. -/
def step (s : Lowering) (t : Token) (next : Option Token) : Except Fault Lowering :=
  match s.handler with
  | .wantsName keyword => do
    refuseReserved t
    if t.kind != .ident then .error ⟨.malformedHandle .identifier, t.span, false⟩
    else return { s with handler := .wantsBrace keyword t }.consume t
  | .wantsBrace keyword name => do
    refuseReserved t
    if !t.isOperator Token.openBrace then .error ⟨.malformedHandle .brace, t.span, false⟩
    else
      let s := s.emit ⟨keyword.span.start, name.span.stop, "if " ++ handleFlag⟩
        (some (.handle name.text))
      return { s with handler := .inBody name.text (Depth.after {} t) }.consume t
  | .inBody name depth => s.stepBody name depth t
  | .idle =>
    if !s.checks.isEmpty && t.kind == .endOfText then
      .error ⟨.unexpectedEnd .check, t.span, false⟩
    else
      let s := s.close t
      match s.checks with
      | [] => s.stepPlain t next
      | c :: outer => s.stepCheck c outer t next

/-- The state after all tokens. -/
def run (s : Lowering) : List Token → Except Fault Lowering
  | [] => .ok s
  | t :: ts => do (← s.step t ts.head?).run ts

end Lowering

/-- The markers that the edits place, given where the edits stand. -/
def Markers.ofPlacements : List (Option Marker × Placement) → Markers
  | [] => {}
  | (marker, p) :: rest =>
    let m := Markers.ofPlacements rest
    match marker with
    | some .check => { m with checks := m.checks.insert p.loweredStart }
    | some (.handle name) => { m with handles := m.handles.insert p.loweredStart name }
    | none => m

/-- The plain form of the source, once all its tokens are read. Edits that
cannot be applied are an internal fault. -/
def Lowering.finish (s : Lowering) (source : String) : Except Fault Lowered :=
  let edits := s.edits.reverse
  match misplacedEdit? source.toList 0 (edits.map Prod.fst) with
  | some e => .error ⟨.misplacedEdit, ⟨e.start, e.stop⟩, true⟩
  | none =>
    let (text, offsets) := applyEdits source (edits.map Prod.fst)
    .ok {
      text := text
      markers := Markers.ofPlacements ((edits.map Prod.snd).zip offsets.placements)
      offsets := offsets
      edits := edits.map Prod.fst }

/-- The plain form of a marked source. -/
def lower (source : String) : Except Fault Lowered := do
  let tokens ← (scan .marked source).toExcept
  (← Lowering.run {} tokens).finish source

end CheckHandle
