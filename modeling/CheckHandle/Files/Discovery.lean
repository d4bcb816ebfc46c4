import CheckHandle.Expand
import CheckHandle.Files.Tree

/-!
# Finding a package

A directory is a package. Its marked files and its plain files are told apart
by their extensions; a plain file that a marked one expands to is left out,
because it is an earlier result.
-/

namespace CheckHandle

/-- The extensions of the files of a package. -/
structure Extensions where
  marked : String := "go2"
  /-- Plain files and results. -/
  plain : String := "go"
deriving DecidableEq, Inhabited

/-- A file of a package, not read yet. -/
structure FoundFile where
  path : String
  marked : Bool
deriving DecidableEq, Inhabited

def unreadable (path : String) (fault : AccessFault) : Failure :=
  unplaced fallbackSource .files (.unreadable path fault.message)

/-- Turns a fault of access into a failure that names the path. -/
def orUnreadable {α : Type} (path : String) : Except AccessFault α → Except Failure α
  | .ok x => .ok x
  | .error fault => .error (unreadable path fault)

namespace Extensions

def isMarked (ext : Extensions) (path : String) : Bool :=
  Path.extension? path == some ext.marked

def isPlain (ext : Extensions) (path : String) : Bool :=
  !ext.isMarked path && Path.extension? path == some ext.plain

/-- The files of a package among the paths of a directory. -/
def select (ext : Extensions) (paths : List String) : List FoundFile :=
  let results := (paths.filter ext.isMarked).map fun path => Path.withExtension path ext.plain
  paths.filterMap fun path =>
    if ext.isMarked path then some ⟨path, true⟩
    else if ext.isPlain path && !results.contains path then some ⟨path, false⟩
    else none

end Extensions

namespace FileTree

/-- The files of the package in a directory, sorted by name. One of them at
least is marked. -/
def findPackage (t : FileTree) (ext : Extensions) (dir : String) :
    Except Failure (List FoundFile) := do
  let names ← orUnreadable dir (t.fileNames dir)
  let files := ext.select (names.map (Path.join dir))
  if files.any FoundFile.marked then return files
  else throw (unplaced fallbackSource .discover (.noSources dir))

def readInput (t : FileTree) (file : FoundFile) : Except Failure SourceInput := do
  return ⟨file.path, ← orUnreadable file.path (t.read file.path), file.marked⟩

/-- The files of the package in a directory with their texts. -/
def readPackage (t : FileTree) (ext : Extensions) (dir : String) :
    Except Failure (List SourceInput) := do
  (← t.findPackage ext dir).mapM t.readInput

/-- The predeclared stubs and over them those of the files. -/
def loadStubs (t : FileTree) (paths : List String) : Except Failure StubSet := do
  paths.foldlM (fun set path => do
      let text ← orUnreadable path (t.read path)
      return set.merge (← StubSet.parse path text))
    (← StubSet.builtin)

end FileTree

end CheckHandle
