import CheckHandle.Command.Help
import CheckHandle.Command.Report
import CheckHandle.Files.Discovery
import CheckHandle.Syntax.Outline

/-!
# Running a command

A command reads a file tree and leaves one behind, together with what it
printed and how it ended.
-/

namespace CheckHandle

/-- How a run ends. -/
inductive Ending where
  | done (summary : Option Summary)
  | failed (failure : Failure)
  | misused (misuse : Misuse)

/-- The exit status: one for a failure, two for a command line that makes no
sense. -/
def Ending.status : Ending → Nat
  | .done _ => 0
  | .failed _ => 1
  | .misused _ => 2

structure CommandResult where
  output : String
  ending : Ending
  files : FileTree

/-- Without output, and with the files as they were. -/
def CommandResult.fail (t : FileTree) (failure : Failure) : CommandResult :=
  ⟨"", .failed failure, t⟩

/-- The package in a directory, and the stubs to type it with. -/
def FileTree.openPackage (t : FileTree) (settings : Settings) (dir : String) :
    Except Failure (Package × StubSet) := do
  let p ← Package.assemble (← t.readPackage {} dir)
  return (p, ← t.loadStubs settings.stubs)

/-- Writes the results beside their sources. What is written before a failure
stays. -/
def FileTree.writeResults (t : FileTree) : List SourceFile → FileTree × Option Failure
  | [] => (t, none)
  | file :: files =>
    let path := file.outputPath ({} : Extensions).plain
    match t.write path file.render with
    | .error fault => (t, some (unreadable path fault))
    | .ok t => t.writeResults files

/-- A marked file with its markers lowered. -/
def FileTree.showLowered (t : FileTree) (file : String) (asJson : Bool) : Except Failure String := do
  let input ← t.readInput ⟨file, true⟩
  match lower input.text with
  | .error fault => throw (Site.locate ⟨file, .lower, none⟩ fault)
  | .ok lowered => return if asJson then lowered.toJson.print ++ "\n" else lowered.listing

/-- The tree of a marked file. -/
def FileTree.showOutline (t : FileTree) (file : String) : Except Failure String := do
  let p ← Package.assemble [← t.readInput ⟨file, true⟩]
  return String.join (p.files.map fun f => f.tree.outline.render 0 ++ "\n")

namespace Command

def runExpand (t : FileTree) (settings : Settings) (dir : String) (toOutput : Bool) : CommandResult :=
  match t.openPackage settings dir with
  | .error failure => .fail t failure
  | .ok (p, stubs) =>
    let run := p.expandWith stubs
    match run.outcome with
    | .error failure => .fail t failure
    | .ok summary =>
      let files := run.package.markedFiles
      if toOutput then
        ⟨String.join (files.map fun f => renderExpanded f.path f.render), .done summary, t⟩
      else
        match t.writeResults files with
        | (t, some failure) => .fail t failure
        | (t, none) => ⟨"", .done summary, t⟩

/-- The rounds before a failure are shown too. -/
def runTrace (t : FileTree) (settings : Settings) (dir : String) : CommandResult :=
  match t.openPackage settings dir with
  | .error failure => .fail t failure
  | .ok (p, stubs) =>
    let run := p.expandWith stubs
    let ending : Ending := match run.outcome with
      | .error failure => .failed failure
      | .ok summary => .done summary
    ⟨renderTrace p.texts run.snapshots, ending, t⟩

/-- A result that leaves the files alone. -/
def shown (t : FileTree) : Except Failure String → CommandResult
  | .ok output => ⟨output, .done none, t⟩
  | .error failure => .fail t failure

def run (t : FileTree) (settings : Settings) : Command → CommandResult
  | .expand dir toOutput => runExpand t settings dir toOutput
  | .lower file asJson => shown t (t.showLowered file asJson)
  | .trace dir => runTrace t settings dir
  | .outline file => shown t (t.showOutline file)

end Command

/-- Runs a command line on a file tree. -/
def runArgs (t : FileTree) (args : List String) : CommandResult :=
  match Invocation.ofArgs args with
  | .error misuse => ⟨"", .misused misuse, t⟩
  | .ok (.help topic) => ⟨topic.page, .done none, t⟩
  | .ok .version => ⟨versionLine, .done none, t⟩
  | .ok (.run settings command) => command.run t settings

end CheckHandle
