import CheckHandle.Token.Layout
import CheckHandle.Syntax.Builder

/-!
# Reading files and types

A file is laid out before it is matched, so that line ends that end a statement
are semicolons. A type on its own is matched as it stands.
-/

namespace CheckHandle

/-- The tree of a whole match. -/
def matchTree (rule : Rule) (text : String) : Build Tree :=
  match matchInput rule text with
  | .error fault => throw fault
  | .ok (t :: _) => return t
  | .ok [] => Build.fail "empty parse result" {}

/-- Reads a source file. -/
def parseFile (text : String) : Build File :=
  match layout text with
  | .error fault => throw fault
  | .ok laidOut => do buildFile (← matchTree .file laidOut)

/-- Reads a type such as `func(string) (*os.File, error)`. -/
def parseType (text : String) : Build TypeExpr := do
  buildType (← matchTree .typeOnly text)

end CheckHandle
