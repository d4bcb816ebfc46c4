import CheckHandle.Command.Run

/-!
# The program

Reads the files that a command line names, runs the command on them, prints
what it printed and writes the files that it changed.
-/

namespace CheckHandle

/-- The paths that an invocation reads. -/
def Invocation.paths : Invocation → List String
  | .run settings (.expand dir _) => dir :: settings.stubs
  | .run settings (.trace dir) => dir :: settings.stubs
  | .run _ (.lower file _) => [file]
  | .run _ (.outline file) => [file]
  | .help _ | .version => []

/-- The location that a part of a path leads to, whatever stands there. -/
def nextLocation (here : Location) (part : String) : Location :=
  if part == "" || part == "." then here
  else if part == ".." then here.dropLast
  else here ++ [part]

/-- The absolute path of a location. -/
def absolutePath (here : Location) : String :=
  "/" ++ "/".intercalate here

def loadFile (t : FileTree) (here : Location) : IO FileTree := do
  return t.set here (.file (String.fromUTF8? (← IO.FS.readBinFile (absolutePath here))))

/-- Adds the files of a package directory. -/
def loadDirectory (t : FileTree) (here : Location) : IO FileTree := do
  let ext : Extensions := {}
  let mut t := t
  for entry in ← ((← IO.currentDir) / absolutePath here).readDir do
    if (ext.isMarked entry.fileName || ext.isPlain entry.fileName) && !(← entry.path.isDir) then
      t ← loadFile t (here ++ [entry.fileName])
  return t

/-- Adds what stands on a path and at its end. -/
def loadPath (t : FileTree) (path : String) : IO FileTree := do
  let mut t := t
  let mut here := t.start path
  for part in Path.parts path do
    here := nextLocation here part
    let entry := (← IO.currentDir) / absolutePath here
    if ← entry.isDir then t := t.set here .directory
    else if ← entry.pathExists then t ← loadFile t here
    else return t
  if t.node? here == some .directory then loadDirectory t here else return t

/-- The files that an invocation reads. -/
def load (invocation : Invocation) : IO FileTree := do
  let workdir := ((Path.parts (← IO.currentDir).toString).filter (· != ""))
  invocation.paths.foldlM loadPath { workdir }

/-- What goes to the error stream. -/
def Ending.report : Ending → String
  | .done none => ""
  | .done (some summary) => summary.render ++ "\n"
  | .failed failure =>
    let place := if failure.source == fallbackSource then ""
      else "  at " ++ failure.source ++ ":" ++ toString failure.span.start ++ "\n"
    let help := match failure.help with
      | none => ""
      | some help => "  help: " ++ help ++ "\n"
    failure.code ++ "\n\n  " ++ failure.message ++ "\n" ++ place ++ help
  | .misused misuse => "error: " ++ misuse.message ++ "\n\nUsage: " ++ HelpTopic.program.usage ++ "\n"

end CheckHandle

open CheckHandle in
def main (args : List String) : IO UInt32 := do
  let t ← match Invocation.ofArgs args with
    | .ok invocation => load invocation
    | .error _ => pure {}
  let result := runArgs t args
  IO.print result.output
  IO.eprint result.ending.report
  for (path, text) in t.changes result.files do
    IO.FS.writeFile path text
  return result.ending.status.toUInt32
