/-!
Text measured in UTF-16 code units: one for a character of the basic plane, two for any other.
Columns of a source map count these units.
-/

namespace StylePrint.Text

/-- The number of UTF-16 code units a character takes. -/
def unitsOf (c : Char) : Nat :=
  if c.toNat < 0x10000 then 1 else 2

/-- The number of UTF-16 code units a text takes. -/
def units : List Char → Nat
  | [] => 0
  | c :: cs => unitsOf c + units cs

@[simp] theorem units_nil : units [] = 0 := rfl

@[simp] theorem units_cons (c : Char) (cs : List Char) :
    units (c :: cs) = unitsOf c + units cs := rfl

@[simp] theorem units_append (s t : List Char) : units (s ++ t) = units s + units t := by
  induction s with
  | nil => simp
  | cons c s ih => simp [ih, Nat.add_assoc]

end StylePrint.Text
