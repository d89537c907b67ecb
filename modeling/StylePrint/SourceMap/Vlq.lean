/-!
Variable-length quantities: a signed number as digits of six bits, the least significant first.
The lowest bit of the number's code holds its sign, and the highest bit of each digit says that
another digit follows. Reading works on bytes and in 64-bit arithmetic that wraps around.
-/

namespace StylePrint.SourceMap.Vlq

/-! ### Writing -/

/-- The digits of a code: five bits each, and 32 more where another digit follows. -/
def digits (code : Nat) : List Nat :=
  if code < 32 then [code] else (code % 32 + 32) :: digits (code / 32)
termination_by code

/-- The code of a signed number: twice its magnitude, and one more when it is negative. -/
def code : Int → Nat
  | .ofNat n => 2 * n
  | .negSucc n => 2 * (n + 1) + 1

/-- The character of a digit. -/
def symbol (digit : Nat) : Char :=
  if digit < 26 then Char.ofNat (65 + digit)
  else if digit < 52 then Char.ofNat (71 + digit)
  else if digit < 62 then Char.ofNat (digit - 4)
  else if digit = 62 then '+'
  else '/'

/-- The characters of a signed number. -/
def encode (n : Int) : List Char :=
  (digits (code n)).map symbol

/-! ### Reading -/

/-- Why a run of digits is not a row of numbers. -/
inductive Fault where
  /-- A number has more digits than 64 bits have room for. -/
  | overflow
  /-- The last number is not finished. -/
  | leftover
  deriving DecidableEq, Repr

/-- The wording of a fault. -/
def Fault.message : Fault → String
  | .overflow => "vlq decode caused an overflow"
  | .leftover => "leftover cur/shift in vlq decode"

/-- The digit of a byte. A byte outside the alphabet counts as a digit with all bits set, but 0x7F
has its lowest bit clear. -/
def digitOf (b : UInt8) : Nat :=
  let v := b.toNat
  if 65 ≤ v ∧ v ≤ 90 then v - 65
  else if 97 ≤ v ∧ v ≤ 122 then v - 71
  else if 48 ≤ v ∧ v ≤ 57 then v + 4
  else if v = 43 then 62
  else if v = 47 then 63
  else if v = 0x7F then 62
  else 63

/-- An integer brought into the range of signed 64-bit words. -/
def wrap (n : Int) : Int := n.bmod UInt64.size

/-- The number that a finished code stands for. -/
def value (code : Int) : Int :=
  if code % 2 = 0 then code / 2 else -(code / 2)

/-- Reads numbers; `code` and `shift` belong to the one in progress. -/
def decodeFrom (code : Int) (shift : Nat) : List UInt8 → Except Fault (List Int)
  | [] => if code ≠ 0 ∨ shift ≠ 0 then .error .leftover else .ok []
  | b :: rest =>
    if 64 ≤ shift then .error .overflow
    else
      let digit := digitOf b
      let code := wrap (code + wrap ((digit % 32) <<< shift : Nat))
      if 32 ≤ digit then decodeFrom code (shift + 5) rest
      else do
        let more ← decodeFrom 0 0 rest
        return value code :: more

/-- The numbers that bytes stand for. -/
def decode (bytes : List UInt8) : Except Fault (List Int) :=
  decodeFrom 0 0 bytes

end StylePrint.SourceMap.Vlq
