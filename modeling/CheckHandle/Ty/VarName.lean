import CheckHandle.Text.Blank
import CheckHandle.Text.Numeric
import CheckHandle.Text.Uppercase

/-!
# Names for values of a type

The text of a type gives a word for its values that can stand in an identifier:
`*os.File` gives `ptrFile`, `[]byte` gives `slcByte`, and `map[string]int` gives
`mapOfStringToInt`. Any text gives a word, a type or not.
-/

namespace CheckHandle

open Text

/-- What the text of a type starts with, and the parts that are types again. -/
inductive TypeText where
  | map (key value : List Char)
  | slice (elem : List Char)
  | array (elem : List Char)
  | pointer (elem : List Char)
  /-- A name after the name of its package. -/
  | qualified (name : List Char)
  /-- A type that is only told by its first word. -/
  | word (text : String)
  | plain (text : List Char)

/-- The rest of `text` after `start`, if it starts so. -/
def afterStart? (start : String) (text : List Char) : Option (List Char) :=
  if start.toList.isPrefixOf text then some (text.drop start.length) else none

/-- What follows the first `c`. -/
def after? (c : Char) : List Char → Option (List Char)
  | [] => none
  | d :: ds => if d == c then some ds else after? c ds

/-- Cuts `K]V` at the bracket that closes the key; `depth` brackets are open. -/
def splitKey (depth : Nat) : List Char → Option (List Char × List Char)
  | [] => none
  | c :: cs =>
    if c == ']' && depth == 0 then some ([], cs)
    else
      let depth := if c == '[' then depth + 1 else if c == ']' then depth - 1 else depth
      (splitKey depth cs).map fun (key, value) => (c :: key, value)

/-- The shape of a type text without blanks around it. -/
def TypeText.of (t : List Char) : TypeText :=
  match afterStart? "map[" t with
  | some rest =>
    match splitKey 0 rest with
    | some (key, value) => .map key value
    | none => .plain rest
  | none =>
    match t with
    | '[' :: ']' :: elem => .slice elem
    | '[' :: rest =>
      match after? ']' rest with
      | some elem => .array elem
      | none => .plain t
    | '*' :: elem => .pointer elem
    | _ =>
      if (afterStart? "func(" t).isSome then .word "func"
      else if (afterStart? "struct\x7b" t).isSome then .word "struct"
      else if (afterStart? "interface\x7b" t).isSome then .word "iface"
      else
        match after? '.' t with
        | some name => .qualified name
        | none => .plain t

theorem length_afterStart? {start : String} {text rest : List Char}
    (h : afterStart? start text = some rest) : rest.length ≤ text.length := by
  unfold afterStart? at h
  split at h
  · cases h
    simp
  · contradiction

theorem length_after? {c : Char} {text rest : List Char} (h : after? c text = some rest) :
    rest.length < text.length := by
  induction text with
  | nil => simp [after?] at h
  | cons d ds ih =>
    rw [after?] at h
    split at h
    · cases h
      simp
    · have := ih h
      simp
      omega

theorem length_splitKey {depth : Nat} {text key value : List Char}
    (h : splitKey depth text = some (key, value)) :
    key.length < text.length ∧ value.length < text.length := by
  induction text generalizing depth key value with
  | nil => simp [splitKey] at h
  | cons c cs ih =>
    rw [splitKey] at h
    split at h
    · cases h
      simp
    · obtain ⟨⟨k, v⟩, hkv, heq⟩ := Option.map_eq_some_iff.mp h
      cases heq
      have := ih hkv
      simp
      omega

theorem length_trim (t : List Char) : (trim t).length ≤ t.length := by
  unfold trim trimEnd trimStart
  have h₁ := (List.dropWhile_suffix (l := (t.dropWhile isBlank).reverse) isBlank).length_le
  have h₂ := (List.dropWhile_suffix (l := t) isBlank).length_le
  simp at h₁ ⊢
  omega

/-- The parts that are types again are shorter than `n`. -/
def TypeText.Shorter (n : Nat) : TypeText → Prop
  | .map key value => key.length < n ∧ value.length < n
  | .slice elem | .array elem | .pointer elem | .qualified elem => elem.length < n
  | .word _ | .plain _ => True

theorem TypeText.shorter_of (t : List Char) : (TypeText.of t).Shorter t.length := by
  unfold TypeText.of
  split
  · rename_i rest hrest
    have := length_afterStart? hrest
    split
    · rename_i key value hkv
      have := length_splitKey hkv
      simp only [Shorter]
      omega
    · trivial
  · split
    · simp only [Shorter, List.length_cons]
      omega
    · split
      · rename_i helem
        have := length_after? helem
        simp only [Shorter, List.length_cons]
        omega
      · trivial
    · simp [Shorter]
    · split
      · trivial
      · split
        · trivial
        · split
          · trivial
          · split
            · rename_i hname
              exact length_after? hname
            · trivial

/-- The letters, digits and underscores of a text, or a stand-in. -/
def plainWord (t : List Char) : List Char :=
  let cleaned := t.filter fun c => isAlphanumeric c || c == '_'
  if cleaned.isEmpty then "value".toList else cleaned

def varWord (t : List Char) : List Char :=
  match _h : TypeText.of (trim t) with
  | .map key value =>
    "mapOf".toList ++ capitalize (varWord key) ++ "To".toList ++ capitalize (varWord value)
  | .slice elem => "slc".toList ++ capitalize (varWord elem)
  | .array elem => "arr".toList ++ capitalize (varWord elem)
  | .pointer elem => "ptr".toList ++ capitalize (varWord elem)
  | .qualified name => varWord name
  | .word text => text.toList
  | .plain text => plainWord text
termination_by t.length
decreasing_by
  all_goals
    have hparts := TypeText.shorter_of (trim t)
    have htrim := length_trim t
    simp only [_h, TypeText.Shorter] at hparts
    omega

/-- The word for values of the type that is written so. -/
def varName (typeText : String) : String :=
  String.ofList (varWord typeText.toList)

end CheckHandle
