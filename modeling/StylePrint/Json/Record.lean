import StylePrint.Json.Basic
/-!
Records in JSON. A record is an object with a member for each field, or an array with the values
of its first fields in their order. `Json.fields?` gives the same view of both: a partial function
from field names to values.
-/

namespace StylePrint.Json

/-- The fields of a record. Members with other names are passed over; an array may be shorter than
the list of names but not longer. -/
def fields? (names : List String) : Json → Option (String → Option Json)
  | .object members => some fun name => members.lookup name
  | .array items =>
    if items.length ≤ names.length then some fun name => items[names.idxOf name]? else none
  | _ => none

/-- A field that has to be present. -/
def required {α : Type} (read : Json → Option α) : Option Json → Option α
  | some j => read j
  | none => none

/-- A field that may be missing but not `null`. -/
def defaulted {α : Type} (read : Json → Option α) (default : α) : Option Json → Option α
  | some j => read j
  | none => some default

/-- A field that may be missing or `null`. -/
def optional {α : Type} (read : Json → Option α) : Option Json → Option (Option α)
  | none => some none
  | some .null => some none
  | some j => (read j).map some

end StylePrint.Json
