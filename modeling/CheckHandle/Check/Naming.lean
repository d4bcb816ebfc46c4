import Std.Data.TreeMap
import CheckHandle.Marker.Names

/-!
# Names for temporaries

Each block numbers its temporaries, separately for each type name.
-/

namespace CheckHandle

/-- The next free number for each type name. -/
structure NamingScope where
  next : Std.TreeMap String Nat := ∅

namespace NamingScope

instance : Inhabited NamingScope := ⟨{}⟩

/-- A name that the scope has not given out before. -/
def allocate (scope : NamingScope) (typeName : String) : String × NamingScope :=
  let n := scope.next.getD typeName 0
  (temporaryName typeName n, ⟨scope.next.insert typeName (n + 1)⟩)

/-- Names for several type names, in order. -/
def allocateAll (scope : NamingScope) : List String → List String × NamingScope
  | [] => ([], scope)
  | typeName :: rest =>
    let (name, scope) := scope.allocate typeName
    let (names, scope) := scope.allocateAll rest
    (name :: names, scope)

end NamingScope

end CheckHandle
