import CheckHandle.Files.Path

/-!
# File trees

A file system as a value: what stands at each place, and which place relative
paths start from. Directories above an entry need no entry of their own.
-/

namespace CheckHandle

/-- Why a path cannot be used. -/
inductive AccessFault where
  | notFound
  | notDirectory
  | isDirectory
  /-- The bytes of a file are not UTF-8. -/
  | notText
deriving DecidableEq, Inhabited

def AccessFault.message : AccessFault → String
  | .notFound => "No such file or directory (os error 2)"
  | .notDirectory => "Not a directory (os error 20)"
  | .isDirectory => "Is a directory (os error 21)"
  | .notText => "stream did not contain valid UTF-8"

/-- The names that lead from the root to an entry. -/
abbrev Location := List String

/-- What stands at a place. -/
inductive Node where
  | directory
  /-- A file; `none` if its bytes are no text. -/
  | file (text : Option String)
deriving DecidableEq, Inhabited

structure FileTree where
  entries : List (Location × Node) := []
  /-- The directory that relative paths start from. -/
  workdir : Location := []
deriving DecidableEq, Inhabited

/-- Sorted insertion by name; of two equal names the first stays first. -/
def insertNamed {α : Type} (x : String × α) : List (String × α) → List (String × α)
  | [] => [x]
  | y :: ys => if y.1 ≤ x.1 then y :: insertNamed x ys else x :: y :: ys

/-- Sorted by name. -/
def sortNamed {α : Type} (xs : List (String × α)) : List (String × α) :=
  xs.foldl (fun sorted x => insertNamed x sorted) []

namespace FileTree

/-- What stands at a place. -/
def node? (t : FileTree) (place : Location) : Option Node :=
  match t.entries.lookup place with
  | some node => some node
  | none =>
    if place.isPrefixOf t.workdir || t.entries.any (fun e => place.isPrefixOf e.1) then
      some .directory
    else none

def setEntry (place : Location) (node : Node) : List (Location × Node) → List (Location × Node)
  | [] => [(place, node)]
  | (p, n) :: es => if p == place then (p, node) :: es else (p, n) :: setEntry place node es

/-- The tree with another node at a place. -/
def set (t : FileTree) (place : Location) (node : Node) : FileTree :=
  { t with entries := setEntry place node t.entries }

/-- Follows one part of a path. -/
def follow (t : FileTree) (place : Location) (part : String) : Except AccessFault Location :=
  match t.node? place with
  | none => .error .notFound
  | some (.file _) => .error .notDirectory
  | some .directory =>
    if part == "" || part == "." then .ok place
    else if part == ".." then .ok place.dropLast
    else if (t.node? (place ++ [part])).isSome then .ok (place ++ [part])
    else .error .notFound

/-- Where a path starts. -/
def start (t : FileTree) (path : String) : Location :=
  if path.toList.head? == some '/' then [] else t.workdir

/-- The place that a path leads to. -/
def resolve (t : FileTree) (path : String) : Except AccessFault Location :=
  if path.isEmpty then .error .notFound
  else (Path.parts path).foldlM t.follow (t.start path)

/-- The text of a file. -/
def read (t : FileTree) (path : String) : Except AccessFault String := do
  match t.node? (← t.resolve path) with
  | none => .error .notFound
  | some .directory => .error .isDirectory
  | some (.file none) => .error .notText
  | some (.file (some text)) => .ok text

/-- The name of an entry directly below a place. -/
def childName? (place entry : Location) : Option String :=
  match entry.drop place.length with
  | [name] => if place.isPrefixOf entry then some name else none
  | _ => none

/-- The files directly below a place, sorted by name. -/
def filesBelow (t : FileTree) (place : Location) : List (String × Option String) :=
  sortNamed (t.entries.filterMap fun
    | (entry, .file text) => (childName? place entry).map (·, text)
    | (_, .directory) => none)

/-- The names of the files in a directory, sorted. There are none in a file. -/
def fileNames (t : FileTree) (path : String) : Except AccessFault (List String) := do
  return (t.filesBelow (← t.resolve path)).map Prod.fst

/-- Puts a file at a path, in a directory that exists. -/
def write (t : FileTree) (path text : String) : Except AccessFault FileTree := do
  let parts := Path.parts path
  let place ← parts.dropLast.foldlM t.follow (t.start path)
  let name := parts.getLastD ""
  match t.node? place with
  | none => .error .notFound
  | some (.file _) => .error .notDirectory
  | some .directory =>
    if name == "" || name == "." || name == ".." then .error .isDirectory
    else match t.node? (place ++ [name]) with
      | some .directory => .error .isDirectory
      | _ => .ok (t.set (place ++ [name]) (.file (some text)))

/-- The texts of the tree that are not the same in an earlier one, with their
paths from the working directory, sorted. -/
def changes (earlier t : FileTree) : List (String × String) :=
  sortNamed (t.entries.filterMap fun
    | (place, .file (some text)) =>
      if earlier.entries.lookup place == some (.file (some text)) then none
      else
        let place := if t.workdir.isPrefixOf place then place.drop t.workdir.length else "" :: place
        some ("/".intercalate place, text)
    | _ => none)

end FileTree

end CheckHandle
