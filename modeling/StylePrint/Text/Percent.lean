import StylePrint.Text.Utf8
/-!
Percent escapes: a percent sign and two characters that name one byte in base sixteen.
`Percent.decode` replaces each escape by its byte and passes every other character on as its
UTF-8 bytes.
-/

namespace StylePrint.Text.Percent

/-- The value of a hexadecimal digit, in either case. -/
def hexDigit? (c : Char) : Option Nat :=
  let v := c.toNat
  if 48 ≤ v ∧ v ≤ 57 then some (v - 48)
  else if 97 ≤ v ∧ v ≤ 102 then some (v - 87)
  else if 65 ≤ v ∧ v ≤ 70 then some (v - 55)
  else none

/-- The byte two characters name: a number of two digits, or of one digit behind a plus sign. -/
def byte? (a b : Char) : Option UInt8 := do
  let low ← hexDigit? b
  if a = '+' then return UInt8.ofNat low
  let high ← hexDigit? a
  return UInt8.ofNat (high * 16 + low)

/-- The bytes of a text that begins at byte offset `index`; the error is the offset of the first
percent sign that no byte's name follows. -/
def decodeFrom (index : Nat) : List Char → Except Nat (List UInt8)
  | [] => .ok []
  | '%' :: a :: b :: rest =>
    match byte? a b with
    | none => .error index
    | some byte => do
      let bytes ← decodeFrom (index + 3) rest
      return byte :: bytes
  | c :: rest =>
    if c = '%' then .error index
    else do
      let bytes ← decodeFrom (index + (Utf8.encodeChar c).length) rest
      return Utf8.encodeChar c ++ bytes

/-- The bytes of a text with percent escapes. -/
def decode (cs : List Char) : Except Nat (List UInt8) :=
  decodeFrom 0 cs

example : decode ['a', '%', '7', 'e', '%', '+', '7'] = .ok [0x61, 0x7E, 0x07] := by rfl
example : decode ['é', '%', '-', '7'] = .error 2 := by rfl

end StylePrint.Text.Percent
