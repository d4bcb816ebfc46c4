import CheckHandle.Check.FixedPoint
import CheckHandle.Json.Printer
import CheckHandle.Text.LineDiff

/-!
# What a run prints
-/

namespace CheckHandle

/-- The closing line of a run. -/
def Summary.render (s : Summary) : String :=
  "expanded " ++ toString s.checks ++ " check(s), " ++ toString s.handlers
    ++ " handler(s) in " ++ toString s.iterations ++ " iteration(s)"

/-- A file under its name. -/
def renderExpanded (name text : String) : String :=
  "// " ++ name ++ "\n" ++ text

namespace Lowered

/-- The text, then the place of every marker. -/
def listing (l : Lowered) : String :=
  let text := if l.text.toList.getLast? == some '\n' then l.text else l.text ++ "\n"
  let checks := l.markers.checks.toList.map fun offset => "check  @" ++ toString offset ++ "\n"
  let handles := l.markers.handles.toList.map fun (offset, name) =>
    "handle @" ++ toString offset ++ " (" ++ name ++ ")\n"
  text ++ "--- Markers ---\n" ++ String.join checks ++ String.join handles

end Lowered

namespace Json

def ofNat (n : Nat) : Json :=
  .number (toString n)

def ofString (s : String) : Json :=
  .string (some s)

/-- An object whose members are sorted by name. -/
def ofMembers (members : List (String × Json)) : Json :=
  .object ((Std.TreeMap.ofList members compare).toList.map fun (name, j) => (some name, j))

end Json

def Edit.toJson (e : Edit) : Json :=
  .ofMembers [("start", .ofNat e.start), ("end", .ofNat e.stop),
    ("replacement", .ofString e.replacement)]

def Markers.toJson (m : Markers) : Json :=
  .ofMembers [("checks", .array (m.checks.toList.map Json.ofNat)),
    ("handles", .ofMembers (m.handles.toList.map fun (offset, name) =>
      (toString offset, .ofString name)))]

def Lowered.toJson (l : Lowered) : Json :=
  .ofMembers [("text", .ofString l.text), ("markers", l.markers.toJson),
    ("edits", .array (l.edits.map Edit.toJson))]

namespace Snapshot

/-- The line above a file of the snapshot. -/
def header (s : Snapshot) (name : String) : String :=
  "--- Iteration " ++ toString s.iteration ++ ": " ++ name ++ " (" ++ toString s.expanded
    ++ " expanded, " ++ toString s.pending ++ " pending) ---\n"

/-- Every file against its text in `last`. -/
def render (last : List (String × String)) (s : Snapshot) : String :=
  String.join (s.files.map fun (name, text) =>
    let hunks := Text.lineDiff ((last.lookup name).getD "") text
    s.header name ++ String.join (hunks.map Text.Hunk.render) ++ "\n")

/-- Every snapshot against the one before it. -/
def renderAll (last : List (String × String)) : List Snapshot → String
  | [] => ""
  | s :: rest => s.render last ++ renderAll s.files rest

end Snapshot

/-- The files of a package in full, then what each round changes. -/
def renderTrace (texts : List (String × String)) (snapshots : List Snapshot) : String :=
  let first := texts.map fun (name, text) => "--- Iteration 0: " ++ name ++ " ---\n" ++ text ++ "\n"
  String.join first ++ Snapshot.renderAll texts snapshots

end CheckHandle
