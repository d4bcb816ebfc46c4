import CheckHandle.Json.Reader
import CheckHandle.Stub.Basic

/-!
# Reading stub files

A stub file is a JSON object by import path:

    { "os": {
        "funcs": { "Open": "func(name string) (*File, error)" },
        "vars":  { "Args": "[]string" },
        "types": { "File": { "underlying": "struct {}",
                             "methods": { "Close": "func() error" } } } } }

Of the parts of a package each may be missing, and so may the methods of a
type. A record may also be written as the array of its parts. Other members of
a record are ignored, repeated ones are refused; in a table the last entry for
a name counts.
-/

namespace CheckHandle

open Std

namespace Json

def text? : Json → Option String
  | .string s => s
  | _ => none

/-- A table: an object every name of which is a text. -/
def table? {α : Type} (entry : Json → Option α) : Json → Option (TreeMap String α)
  | .object members => do
    let entries ← members.mapM fun (name, value) => do return (← name, ← entry value)
    return TreeMap.ofList entries
  | _ => none

/-- The member `name` of a record, if there is one. All names must be texts, and
`name` must not be repeated. -/
def member? (members : List (JsonText × Json)) (name : String) : Option (Option Json) :=
  match members.filter fun m => m.1 == some name with
  | [] => some none
  | [(_, value)] => some (some value)
  | _ => none

/-- What an optional part means, or an empty table. -/
def partOr? {α : Type} (read : Json → Option (TreeMap String α)) :
    Option Json → Option (TreeMap String α)
  | none => some ∅
  | some value => read value

/-- The parts with the given names, from a record or from an array. -/
def parts? (names : List String) : Json → Option (List (Option Json))
  | .object members =>
    if members.all fun m => m.1.isSome then names.mapM (member? members) else none
  | .array items =>
    if items.length ≤ names.length then
      some (items.map some ++ List.replicate (names.length - items.length) none)
    else none
  | _ => none

end Json

def TypeStub.ofJson? (j : Json) : Option TypeStub := do
  match ← j.parts? ["underlying", "methods"] with
  | [some underlying, methods] =>
    return { underlying := ← underlying.text?
             methods := ← Json.partOr? (Json.table? Json.text?) methods }
  | _ => none

def PackageStub.ofJson? (j : Json) : Option PackageStub := do
  match ← j.parts? ["funcs", "vars", "types"] with
  | [funcs, vars, types] =>
    return { funcs := ← Json.partOr? (Json.table? Json.text?) funcs
             vars := ← Json.partOr? (Json.table? Json.text?) vars
             types := ← Json.partOr? (Json.table? TypeStub.ofJson?) types }
  | _ => none

def StubFile.ofJson? (j : Json) : Option StubFile :=
  Json.table? PackageStub.ofJson? j

/-- Reads the stub file called `source`. -/
def StubSet.parse (source text : String) : Except Failure StubSet :=
  match (Json.parse? text).bind StubFile.ofJson? with
  | none => .error (unplaced source .stubs (.invalidStubs .badDocument))
  | some file =>
    match file.load with
    | .ok set => .ok set
    | .error fault => .error (unplaced source .stubs (.invalidStubs fault))

end CheckHandle
