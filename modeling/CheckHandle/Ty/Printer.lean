import CheckHandle.Ty.Basic

/-!
# Writing types

The notation of the host language, on one line. A tuple, which has no notation
there, is written in parentheses.
-/

namespace CheckHandle

/-- The text of a declared type, which is also the key it is known by. -/
def qualifiedName (package name : String) : String :=
  if package.isEmpty then name else package ++ "." ++ name

mutual

def Ty.text : Ty → String
  | .basic b => b.name
  | .named package name => qualifiedName package name
  | .pointer elem => "*" ++ elem.text
  | .slice elem => "[]" ++ elem.text
  | .array (some n) elem => "[" ++ toString n ++ "]" ++ elem.text
  | .array none elem => "[...]" ++ elem.text
  | .map key value => "map[" ++ key.text ++ "]" ++ value.text
  | .func sig => "func" ++ sig.text
  | .struct fields => "struct\x7b" ++ "; ".intercalate (fieldTexts fields) ++ "\x7d"
  | .interface methods embeds =>
    "interface\x7b" ++ "; ".intercalate (tyTexts embeds ++ methodTexts methods) ++ "\x7d"
  | .tuple items => "(" ++ ", ".intercalate (tyTexts items) ++ ")"

/-- Parameters and results, without the word `func`. -/
def FuncTy.text : FuncTy → String
  | ⟨params, results, variadic⟩ =>
    "(" ++ ", ".intercalate (paramTexts variadic params) ++ ")"
      ++ match results with
        | [] => ""
        | [single] => " " ++ single.text
        | many => " (" ++ ", ".intercalate (tyTexts many) ++ ")"

def tyTexts : List Ty → List String
  | [] => []
  | t :: ts => t.text :: tyTexts ts

/-- Parameters; the last of a variadic function is written by its element. -/
def paramTexts (variadic : Bool) : List Ty → List String
  | [] => []
  | [.slice elem] => [if variadic then "..." ++ elem.text else "[]" ++ elem.text]
  | t :: ts => t.text :: paramTexts variadic ts

def fieldTexts : List StructField → List String
  | [] => []
  | ⟨name, ty, embedded⟩ :: fs =>
    (if embedded then ty.text else name ++ " " ++ ty.text) :: fieldTexts fs

def methodTexts : List Method → List String
  | [] => []
  | ⟨name, sig⟩ :: ms => (name ++ sig.text) :: methodTexts ms

end

/-- The name under which a declared type is known. -/
def Ty.key? : Ty → Option String
  | .named package name => some (qualifiedName package name)
  | _ => none

/-- The whole text of a function type. -/
def FuncTy.fullText (sig : FuncTy) : String :=
  "func" ++ sig.text

end CheckHandle
