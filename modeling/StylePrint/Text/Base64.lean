/-!
Base64 with the standard alphabet and mandatory padding. `Base64.encode` writes bytes;
`Base64.decode` reads them back and names the first offence it finds, with its offset.
-/

namespace StylePrint.Text.Base64

/-- The character of a six-bit digit. -/
def symbol (digit : Nat) : Char :=
  if digit < 26 then Char.ofNat (65 + digit)
  else if digit < 52 then Char.ofNat (71 + digit)
  else if digit < 62 then Char.ofNat (digit - 4)
  else if digit = 62 then '+'
  else '/'

/-- The six-bit digit a byte stands for. -/
def digit? (b : UInt8) : Option Nat :=
  let v := b.toNat
  if 65 ≤ v ∧ v ≤ 90 then some (v - 65)
  else if 97 ≤ v ∧ v ≤ 122 then some (v - 71)
  else if 48 ≤ v ∧ v ≤ 57 then some (v + 4)
  else if v = 43 then some 62
  else if v = 47 then some 63
  else none

/-- The byte of the padding character. -/
def pad : UInt8 := 61

/-- The characters of a byte string: four for each three bytes, the last group padded. -/
def encode : List UInt8 → List Char
  | [] => []
  | [a] => [symbol (a.toNat / 4), symbol (a.toNat % 4 * 16), '=', '=']
  | [a, b] =>
    [symbol (a.toNat / 4), symbol (a.toNat % 4 * 16 + b.toNat / 16),
     symbol (b.toNat % 16 * 4), '=']
  | a :: b :: c :: rest =>
    symbol (a.toNat / 4) :: symbol (a.toNat % 4 * 16 + b.toNat / 16) ::
      symbol (b.toNat % 16 * 4 + c.toNat / 64) :: symbol (c.toNat % 64) :: encode rest

/-- Why bytes are not Base64. -/
inductive Fault
  /-- A byte that may not stand where it stands. -/
  | symbol (byte : UInt8) (offset : Nat)
  /-- A last group of fewer than two symbols. -/
  | tooShort (length : Nat)
  /-- A last group that is not padded to four. -/
  | padding
  /-- A last symbol whose unused bits are not zero. -/
  | lastSymbol (byte : UInt8) (offset : Nat)
  deriving DecidableEq, Repr

/-- The wording of a fault. -/
def Fault.message : Fault → String
  | .symbol byte offset =>
    "Invalid symbol " ++ toString byte.toNat ++ ", offset " ++ toString offset ++ "."
  | .tooShort length => "Invalid input length: " ++ toString length
  | .padding => "Invalid padding"
  | .lastSymbol byte offset =>
    "Invalid last symbol " ++ toString byte.toNat ++ ", offset " ++ toString offset ++ "."

/-- The three bytes of four digits. -/
def triple (a b c d : Nat) : List UInt8 :=
  [UInt8.ofNat (a * 4 + b / 16), UInt8.ofNat (b % 16 * 16 + c / 4), UInt8.ofNat (c % 4 * 64 + d)]

/-- The digit of the byte at `offset`, or the fault that it is none. -/
def digitAt (offset : Nat) (b : UInt8) : Except Fault Nat :=
  match digit? b with
  | some digit => .ok digit
  | none => .error (.symbol b offset)

/-- Reads the symbols of the last group from the left: each is a digit until the padding begins
at `firstPad?`, and nothing but padding follows. The padding may not begin before the third
place. -/
def lastDigits (start : Nat) : Nat → Option Nat → List UInt8 → Except Fault (List (UInt8 × Nat))
  | _, _, [] => .ok []
  | place, firstPad?, b :: rest =>
    if b = pad then
      if place < 2 then .error (.symbol pad (start + place))
      else lastDigits start (place + 1) (some (firstPad?.getD place)) rest
    else match firstPad? with
      | some firstPad => .error (.symbol pad (start + firstPad))
      | none => do
        let digit ← digitAt (start + place) b
        let more ← lastDigits start (place + 1) none rest
        return (b, digit) :: more

/-- Reads the last group, which begins at offset `start` and holds one to four bytes. -/
def decodeLast (start : Nat) (group : List UInt8) : Except Fault (List UInt8) := do
  let symbols ← lastDigits start 0 none group
  if symbols.length < 2 then .error (.tooShort (start + symbols.length))
  else if group.length ≠ 4 then .error .padding
  else match symbols with
    | [(_, a), (byte, b)] =>
      if b % 16 = 0 then .ok [UInt8.ofNat (a * 4 + b / 16)]
      else .error (.lastSymbol byte (start + 1))
    | [(_, a), (_, b), (byte, c)] =>
      if c % 4 = 0 then .ok [UInt8.ofNat (a * 4 + b / 16), UInt8.ofNat (b % 16 * 16 + c / 4)]
      else .error (.lastSymbol byte (start + 2))
    | [(_, a), (_, b), (_, c), (_, d)] => .ok (triple a b c d)
    | _ => .ok []

/-- Reads group after group; the last one, full or not, follows rules of its own. -/
def decodeFrom (start : Nat) : List UInt8 → Except Fault (List UInt8)
  | a :: b :: c :: d :: e :: rest => do
    let p ← digitAt start a
    let q ← digitAt (start + 1) b
    let r ← digitAt (start + 2) c
    let s ← digitAt (start + 3) d
    let more ← decodeFrom (start + 4) (e :: rest)
    return triple p q r s ++ more
  | [] => .ok []
  | group => decodeLast start group

/-- A last byte that is neither a digit nor padding, in a text whose length leaves one byte over,
is reported before anything else. -/
def strayLast? (bytes : List UInt8) : Option Fault :=
  match bytes.getLast? with
  | some last =>
    if bytes.length % 4 = 1 ∧ last ≠ pad ∧ digit? last = none then
      some (.symbol last (bytes.length - 1))
    else none
  | none => none

/-- The bytes that Base64 text stands for. -/
def decode (bytes : List UInt8) : Except Fault (List UInt8) :=
  match strayLast? bytes with
  | some fault => .error fault
  | none => decodeFrom 0 bytes

example : encode [0x66, 0x6F, 0x6F, 0x62] = "Zm9vYg==".toList := by decide
example : decode [0x5A, 0x6D, 0x39, 0x76, 0x59, 0x67, 0x3D, 0x3D] =
    .ok [0x66, 0x6F, 0x6F, 0x62] := by
  rfl

end StylePrint.Text.Base64
