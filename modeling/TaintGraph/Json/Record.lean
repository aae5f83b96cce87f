/-
# Records as JSON

A record is written as an object with one member for each field, in the order
of its fields. It is read from such an object in any order, or from the array of
its field values. Members with other keys are passed over; a field given twice is
refused. Each field decides for itself what a missing member means: it may be
required, optional or have a default.

Key definitions: `Json.fields?`, `Json.leadingFields?`, `Json.required`,
`Json.optional`, `Json.withDefault`.
-/
import TaintGraph.Json.Value

namespace TaintGraph
namespace Json

/-- The members of an object with their keys read. -/
def readKeys? (members : List (List Char × Json)) : Option (List (String × Json)) :=
  members.mapM fun m => (unescape m.1).map fun key => (String.ofList key, m.2)

/-- The value of a key: none when the key is missing. Refused when the key is
given twice. -/
def member? (members : List (String × Json)) (key : String) : Option (Option Json) :=
  match members.filter fun m => m.1 = key with
  | [] => some none
  | [m] => some (some m.2)
  | _ => none

/-- The values of the fields of an object, in the order of the fields. -/
def objectFields? (fields : List String) (members : List (List Char × Json)) :
    Option (List (Option Json)) := do
  let members ← readKeys? members
  fields.mapM (member? members)

/-- The values of the fields of a record, written as an object or as an array
with one item for each field. -/
def fields? (fields : List String) : Json → Option (List (Option Json))
  | .obj members => objectFields? fields members
  | .arr items => if items.length = fields.length then some (items.map some) else none
  | _ => none

/-- The same where an array may leave out the last fields. -/
def leadingFields? (fields : List String) : Json → Option (List (Option Json))
  | .obj members => objectFields? fields members
  | .arr items =>
    if items.length ≤ fields.length then
      some (items.map some ++ List.replicate (fields.length - items.length) none)
    else none
  | _ => none

variable {α : Type}

/-- A field that must be given. -/
def required (read : Json → Option α) (value : Option Json) : Option α :=
  value.bind read

/-- A field that may be missing or null. -/
def optional (read : Json → Option α) : Option Json → Option (Option α)
  | none | some .null => some none
  | some value => (read value).map some

/-- A field that may be missing. -/
def withDefault (default : α) (read : Json → Option α) : Option Json → Option α
  | none => some default
  | some value => read value

end Json
end TaintGraph
