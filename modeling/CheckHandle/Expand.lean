import CheckHandle.Check.FixedPoint
import CheckHandle.Checker.Pass
import CheckHandle.Stub.Builtin
import CheckHandle.Stub.Reader

/-!
# Expanding source code

The whole way from marked source to plain source.
-/

namespace CheckHandle

/-- Types as the checker finds them. -/
def StubSet.typing (stubs : StubSet) : Typing := fun _ p => stubs.check p

/-- Expands a package against the given stubs. -/
def Package.expandWith (stubs : StubSet) (p : Package) : Run :=
  p.expand stubs.typing

/-- Stubs from documents, each with its name, over the predeclared ones. -/
def StubSet.load (documents : List (String × String)) : Except Failure StubSet := do
  documents.foldlM (fun set (name, text) => do return set.merge (← StubSet.parse name text))
    (← StubSet.builtin)

/-- Expands a single marked source against the predeclared stubs. -/
def expandSource (name text : String) : Except Failure String := do
  let p ← Package.assemble [⟨name, text, true⟩]
  let run := p.expandWith (← StubSet.builtin)
  let _ ← run.outcome
  return String.join (run.package.markedFiles.map SourceFile.render)

end CheckHandle
