import CheckHandle.Syntax.Visitor

/-!
# Renaming

Every identifier expression of one name takes another. Selected names and
names inside types are left alone.
-/

namespace CheckHandle

/-- Replaces the identifier `old` by `new`. -/
def renamer (old new : String) : Visitor Unit Empty where
  exitExpr x _ :=
    match x with
    | .ident info name => pure (if name == old then .replace (.ident info new) else .keep)
    | _ => pure .keep

def Block.rename (old new : String) (block : Block) : Block :=
  (walkBlock (renamer old new) block ⟨(), none⟩).1

end CheckHandle
