import CheckHandle.Files.Path
import CheckHandle.Marker.Lowering
import CheckHandle.Syntax.Parser
import CheckHandle.Syntax.Printer

/-!
# Packages

The files of one package, read into one space of node identities. A marked file
may hold `check` and `handle` and is lowered before it is parsed; a plain file
only takes part in typing.
-/

namespace CheckHandle

/-- A file before it is parsed. -/
structure SourceInput where
  path : String
  text : String
  marked : Bool
deriving DecidableEq, Inhabited

structure SourceFile where
  path : String
  /-- The text as the user wrote it. -/
  text : String
  /-- The lowered form of a marked file. -/
  lowered : Option Lowered
  tree : File

namespace SourceFile

def isMarked (f : SourceFile) : Bool :=
  f.lowered.isSome

/-- The site of a fault whose span is that of the parsed text. -/
def site (f : SourceFile) (phase : Phase) : Site :=
  ⟨f.path, phase, f.lowered.map Lowered.offsets⟩

def render (f : SourceFile) : String :=
  f.tree.print

/-- Where the expanded file goes. -/
def outputPath (f : SourceFile) (ext : String) : String :=
  Path.withExtension f.path ext

end SourceFile

structure Package where
  name : String
  files : List SourceFile
  /-- The next unused node identity. -/
  nextId : NodeId

def Package.markedFiles (p : Package) : List SourceFile :=
  p.files.filter SourceFile.isMarked

/-- Lowers a marked input; a plain one stays as it is. -/
def lowerInput (input : SourceInput) : Except Failure (Option Lowered) :=
  if input.marked then
    match lower input.text with
    | .ok lowered => .ok (some lowered)
    | .error fault => .error (Site.locate ⟨input.path, .lower, none⟩ fault)
  else .ok none

/-- Reads one file, drawing identities from `next` on. -/
def readSource (next : NodeId) (input : SourceInput) : Except Failure (SourceFile × NodeId) := do
  let lowered ← lowerInput input
  let text := match lowered with
    | some l => l.text
    | none => input.text
  match parseFile text next with
  | .ok (tree, next) => return (⟨input.path, input.text, lowered, tree⟩, next)
  | .error fault =>
    throw (Site.locate ⟨input.path, .parse, lowered.map Lowered.offsets⟩ fault)

/-- Fails if the file does not belong to the package that is expected. -/
def checkPackageName (expected : Option String) (file : SourceFile) : Except Failure Unit :=
  match expected with
  | none => .ok ()
  | some name =>
    let found := file.tree.package
    if name == found.name then .ok ()
    else .error ((file.site .parse).locate
      ⟨.mismatchedPackage name found.name, found.info.span, false⟩)

/-- Reads files in order. The first of them names the package. -/
def readSources (expected : Option String) (next : NodeId) :
    List SourceInput → Except Failure (List SourceFile × NodeId)
  | [] => .ok ([], next)
  | input :: inputs => do
    let (file, next) ← readSource next input
    checkPackageName expected file
    let (files, next) ← readSources (expected.or (some file.tree.package.name)) next inputs
    return (file :: files, next)

/-- Reads the files of a package. -/
def Package.assemble (inputs : List SourceInput) : Except Failure Package := do
  let (files, nextId) ← readSources none 0 inputs
  match files with
  | [] => throw (unplaced fallbackSource .discover (.noSources ""))
  | first :: _ => return { name := first.tree.package.name, files, nextId }

end CheckHandle
