/-!
# JSON values
-/

namespace CheckHandle

/-- The content of a JSON string; `none` if its escapes spell half of a
surrogate pair, which no text contains. -/
abbrev JsonText := Option String

inductive Json where
  | null
  | bool (b : Bool)
  /-- A number as it is written. -/
  | number (text : String)
  | string (s : JsonText)
  | array (items : List Json)
  /-- Members in the order in which they are written, repeated names included. -/
  | object (members : List (JsonText × Json))

end CheckHandle
