import CheckHandle.Text.Split

/-!
# Paths

A path is a text with slashes. Its file name is its last part; slashes and dots
that stand alone at the end do not count as parts.
-/

namespace CheckHandle.Path

/-- A reversed path without the slashes and the single dots at its end. -/
def dropTail : List Char → List Char
  | '/' :: cs => dropTail cs
  | '.' :: cs => if cs.head? == some '/' then dropTail cs else '.' :: cs
  | cs => cs

/-- The path up to its last slash, and its file name. -/
def splitName (path : String) : List Char × List Char :=
  let cs := dropTail path.toList.reverse
  ((cs.dropWhile (· != '/')).reverse, (cs.takeWhile (· != '/')).reverse)

/-- The text before and after the last dot, unless only a dot at the very start
divides it. -/
def splitExtension (name : List Char) : Option (List Char × List Char) :=
  let reversed := name.reverse
  match (reversed.dropWhile (· != '.')).drop 1 with
  | [] => none
  | stem => some (stem.reverse, (reversed.takeWhile (· != '.')).reverse)

/-- The file name, if the path ends in one. -/
def fileName? (path : String) : Option (List Char) :=
  let name := (splitName path).2
  if name.isEmpty || name == ['.'] || name == ['.', '.'] then none else some name

/-- What follows the last dot of the file name. -/
def extension? (path : String) : Option String := do
  let (_, ext) ← splitExtension (← fileName? path)
  return String.ofList ext

/-- The path with another extension. A path without a file name stays as it
is. The old extension goes first, and what that leaves of a name such as `..x`
is no file name either. -/
def withExtension (path ext : String) : String :=
  match fileName? path with
  | none => path
  | some name =>
    let dir := (splitName path).1
    let ending := if ext.isEmpty then "" else "." ++ ext
    match splitExtension name with
    | none => String.ofList (dir ++ name) ++ ending
    | some (stem, old) =>
      if stem == ['.'] && !old.isEmpty && path.toList == dir ++ name then
        String.ofList (dir ++ ['.', '.'])
      else String.ofList (dir ++ stem) ++ ending

/-- What stands between the slashes. -/
def parts (path : String) : List String :=
  Text.split '/' path

/-- The path of the entry `name` of a directory. -/
def join (dir name : String) : String :=
  if dir.isEmpty || dir.toList.getLast? == some '/' then dir ++ name else dir ++ "/" ++ name

end CheckHandle.Path
