import CheckHandle.Check.Expansion
import CheckHandle.Text.Bytes

/-!
# Expanding until nothing is left

Typing and expansion take turns: an expansion gives a temporary a type, and
with it the checks that use it. The run ends when no check is pending, or when
a round has expanded none.
-/

namespace CheckHandle

open Std

/-- A source of types: what is known of a package when it is asked for the
`n`th time. -/
abbrev Typing := Nat → Package → TypeInfo

/-- The package after one round. -/
structure Snapshot where
  iteration : Nat
  expanded : Nat
  pending : Nat
  /-- Name and text of every marked file. -/
  files : List (String × String)
deriving DecidableEq, Inhabited

/-- The outcome of a successful run. -/
structure Summary where
  checks : Nat
  handlers : Nat
  iterations : Nat
deriving DecidableEq, Inhabited

/-- A finished run. The snapshots of a run that failed are kept. -/
structure Run where
  package : Package
  snapshots : List Snapshot
  outcome : Except Failure Summary

def Package.texts (p : Package) : List (String × String) :=
  p.markedFiles.map fun f => (f.path, f.render)

/-- Where a pending check stands in the user's source: file, line and
column. -/
def checkLocation (p : Package) (binding : CheckBinding) : Option String := do
  let file ← p.files[binding.file]?
  let span := (file.site .expand).sourceSpan binding.span
  let (line, column) := Text.lineColumn file.text.toList span.start
  return file.path ++ ":" ++ toString line ++ ":" ++ toString column

/-- The failure of a run that cannot type its pending checks. It points at the
first of them. -/
def stagnation (p : Package) (collected : Collected) (info : TypeInfo) : Failure :=
  let bindings := collected.checks.toList.map Prod.snd
  let cause : Cause := .undefinedType collected.pending
  let locations := bindings.filterMap (checkLocation p)
  let first := bindings.findSome? fun b => (p.files[b.file]?).map fun file => (file, b.span)
  let failure := match first with
    | some (file, span) => (file.site .expand).locate ⟨cause, span, false⟩
    | none => unplaced fallbackSource .expand cause
  let complaints := (info.diagnostics.take 8).map fun d => "\n" ++ d.file ++ ": " ++ d.message
  { failure with
    help := some ("unresolved checks at " ++ ", ".intercalate locations ++ String.join complaints) }

/-- The outcome of one round over the files of a package. -/
structure Round where
  files : List SourceFile
  state : ExpandState
  expanded : Nat
  failure : Option Failure

/-- Expands the marked files from number `index` on. A failure leaves the files
after it alone. -/
def expandFiles (info : TypeInfo) (index : Nat) (state : ExpandState) : List SourceFile → Round
  | [] => ⟨[], state, 0, none⟩
  | file :: files =>
    if file.isMarked then
      let pass := expandFile info index file.tree state
      let file := { file with tree := pass.tree }
      match pass.fault with
      | some fault => ⟨file :: files, pass.state, pass.expanded, (file.site .expand).locate fault⟩
      | none =>
        let round := expandFiles info (index + 1) pass.state files
        { round with files := file :: round.files, expanded := pass.expanded + round.expanded }
    else
      let round := expandFiles info (index + 1) state files
      { round with files := file :: round.files }

/-- The rounds that are left. `iteration` counts the rounds so far; `fuel` is
more than any run needs. -/
def rounds (typing : Typing) (checks handlers : Nat) (collected : Collected)
    (spliced : TreeSet NodeId) (iteration : Nat) (p : Package) (snapshots : List Snapshot) :
    (fuel : Nat) → Run
  | 0 =>
    if collected.pending == 0 then ⟨p, snapshots, .ok ⟨checks, handlers, iteration⟩⟩
    else ⟨p, snapshots, .error (stagnation p collected (typing iteration p))⟩
  | fuel + 1 =>
    if collected.pending == 0 then ⟨p, snapshots, .ok ⟨checks, handlers, iteration⟩⟩
    else
      let info := typing iteration p
      let round := expandFiles info 0 ⟨collected, spliced, p.nextId⟩ p.files
      let p := { p with files := round.files, nextId := round.state.nextId }
      match round.failure with
      | some failure => ⟨p, snapshots, .error failure⟩
      | none =>
        let pending := round.state.collected.pending
        let snapshot : Snapshot :=
          { iteration := iteration + 1, expanded := round.expanded, pending, files := p.texts }
        let snapshots := snapshots ++ [snapshot]
        if pending != 0 && pending == collected.pending then
          ⟨p, snapshots, .error (stagnation p round.state.collected info)⟩
        else
          rounds typing checks handlers round.state.collected round.state.spliced (iteration + 1)
            p snapshots fuel

/-- Expands every marker of a package. -/
def Package.expand (typing : Typing) (p : Package) : Run :=
  match p.collect with
  | .error failure => ⟨p, [], .error failure⟩
  | .ok (p, collected) =>
    rounds typing collected.pending collected.handlers.length collected ∅ 0 p []
      (collected.pending + 1)

end CheckHandle
