/-!
JSON values. An object is a list of members, so the order of its members belongs to the value;
values that were read from text have their members in ascending order of name, each name once.
-/

namespace StylePrint

/-- A number of a JSON value: an integer of at most 64 bits, or the bits of a binary64
floating-point number. -/
inductive Json.Number where
  | integer (value : Int)
  | float (bits : UInt64)
  deriving DecidableEq, Repr

/-- A JSON value. -/
inductive Json where
  | null
  | bool (value : Bool)
  | number (value : Json.Number)
  | string (value : String)
  | array (items : List Json)
  | object (members : List (String × Json))
  deriving Repr, Inhabited

namespace Json

/-- The natural number as a JSON value. -/
def nat (n : Nat) : Json := .number (.integer n)

/-- The 32-bit word as a JSON value. -/
def word (w : UInt32) : Json := nat w.toNat

/-- The optional text as a JSON value, `null` when there is none. -/
def orNull : Option String → Json
  | some s => .string s
  | none => .null

/-! ### Members in order of name -/

/-- Adds a member to members in ascending order of name; a member of that name is replaced. -/
def insertMember (name : String) (value : Json) : List (String × Json) → List (String × Json)
  | [] => [(name, value)]
  | (other, old) :: rest =>
    if name = other then (name, value) :: rest
    else if name < other then (name, value) :: (other, old) :: rest
    else (other, old) :: insertMember name value rest

/-- Members in ascending order of name; of several members of one name the last stays. -/
def sortMembers (members : List (String × Json)) : List (String × Json) :=
  members.foldl (fun sorted member => insertMember member.1 member.2 sorted) []

/-- The member of a given name, when the value is an object that has one. -/
def get? (name : String) : Json → Option Json
  | .object members => members.lookup name
  | _ => none

/-- The text of a string value. -/
def string? : Json → Option String
  | .string s => some s
  | _ => none

/-- The truth value of a Boolean value. -/
def bool? : Json → Option Bool
  | .bool b => some b
  | _ => none

/-- The value of an integer that fits an unsigned 32-bit word. -/
def word? : Json → Option UInt32
  | .number (.integer n) => if 0 ≤ n ∧ n < 4294967296 then some (UInt32.ofNat n.toNat) else none
  | _ => none

/-- The items of an array. -/
def items? : Json → Option (List Json)
  | .array items => some items
  | _ => none

/-- The texts of an array of strings. -/
def strings? (j : Json) : Option (List String) := do
  (← j.items?).mapM string?

/-- The texts of an array of strings and nulls. -/
def nullableStrings? (j : Json) : Option (List (Option String)) := do
  (← j.items?).mapM fun
    | .null => some none
    | item => item.string?.map some

end Json

end StylePrint
