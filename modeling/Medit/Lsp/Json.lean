import Mathlib.Data.Rat.Floor

/-!
# JSON values

The values that `lsp-json.cpp` reads, as JSON-GLib has them, and its readers of positions and
ranges.

## Main definitions

* `Json` — a value.
* `getObject`, `getArray`, `getString`, `lookupString` — the readers of members.
* `getPosition`, `getRange` — the readers of positions and ranges.
-/

namespace Medit

/-- A JSON value. Strings are C strings, without a zero; a double is nothing here when it is not
finite. -/
inductive Json where
  | null
  | bool (b : Bool)
  | int (n : ℤ)
  | double (x : Option ℚ)
  | string (s : List Char)
  | array (elements : List Json)
  | object (members : List (String × Json))

/-- `G_MAXINT` -/
def gMaxInt : ℤ := 2147483647

namespace Json

/-- The members of a `JsonObject`. -/
abbrev Object := List (String × Json)

/-- `lsp_json_get_node` -/
def getNode (object : Object) (member : String) : Option Json := object.lookup member

/-- `lsp_json_has` -/
def has (object : Object) (member : String) : Bool :=
  match getNode object member with
  | none => false
  | some .null => false
  | some _ => true

/-- `lsp_json_get_string` -/
def getString (object : Object) (member : String) : Option (List Char) :=
  match getNode object member with
  | some (.string s) => some s
  | _ => none

/-- `lsp_json_get_object` -/
def getObject (object : Object) (member : String) : Option Object :=
  match getNode object member with
  | some (.object members) => some members
  | _ => none

/-- `lsp_json_get_array` -/
def getArray (object : Object) (member : String) : Option (List Json) :=
  match getNode object member with
  | some (.array elements) => some elements
  | _ => none

/-- `lsp_json_lookup_string`, with the components of the path. -/
def lookupString : Object → List String → Option (List Char)
  | _, [] => none
  | members, [last] => getString members last
  | members, part :: path => (getObject members part).bind (lookupString · path)

/-- `json_node_get_int` of a value -/
def toInt : Json → ℤ
  | .int n => n
  | .double (some x) => if 0 ≤ x then ⌊x⌋ else ⌈x⌉
  | .bool b => if b then 1 else 0
  | _ => 0

/-- `lsp_json_get_int` -/
def getInt (object : Object) (member : String) (dflt : ℤ) : ℤ :=
  match getNode object member with
  | some (.int n) => n
  | some (.double x) => (double x).toInt
  | _ => dflt

/-- `lsp_json_get_bool` -/
def getBool (object : Object) (member : String) (dflt : Bool) : Bool :=
  match getNode object member with
  | some (.bool b) => b
  | _ => dflt

/-- `lsp_json_lookup_bool`, with the components of the path. -/
def lookupBool : Object → List String → Bool → Bool
  | _, [], dflt => dflt
  | members, [last], dflt => getBool members last dflt
  | members, part :: path, dflt =>
    match getObject members part with
    | some inner => lookupBool inner path dflt
    | none => dflt

/-- `lsp_json_get_provider` -/
def getProvider (object : Object) (member : String) : Bool :=
  match getNode object member with
  | some (.object _) => true
  | some (.bool b) => b
  | _ => false

/-- `get_position_number` -/
def getPositionNumber (object : Object) (member : String) : Option ℤ :=
  match getNode object member with
  | some (.int number) => if number < 0 ∨ number > gMaxInt then none else some number
  | some (.double (some number)) =>
    if number < 0 ∨ number > gMaxInt ∨ number ≠ ⌊number⌋ then none else some ⌊number⌋
  | _ => none

/-- `lsp_json_get_position` -/
def getPosition (object : Object) : Option (ℤ × ℤ) := do
  let line ← getPositionNumber object "line"
  let character ← getPositionNumber object "character"
  some (line, character)

/-- `lsp_json_position` -/
def position (line character : ℤ) : Object := [("line", .int line), ("character", .int character)]

/-- `lsp_json_get_range`: the lines and characters of the start and the end. -/
def getRange (object : Object) : Option ((ℤ × ℤ) × (ℤ × ℤ)) := do
  let (startLine, startCharacter) ← (getObject object "start").bind getPosition
  let (endLine, endCharacter) ← (getObject object "end").bind getPosition
  if startLine < 0 ∨ startCharacter < 0 ∨ endLine < 0 ∨ endCharacter < 0 ∨
      startLine > endLine ∨ (startLine = endLine ∧ startCharacter > endCharacter) then none
  else some ((startLine, startCharacter), (endLine, endCharacter))

end Json

end Medit
