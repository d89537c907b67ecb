/-!
The shortest decimal text of a binary64 number: the fewest digits that read back to it, the
nearest such digits, laid out positionally when the decimal point falls among or near them and
with an exponent otherwise.
-/

namespace StylePrint.Json.Shortest

/-- A positive binary64 number as `mantissa * 2 ^ exponent`; `narrow` holds when the gap below is
half the gap above. -/
structure Binary where
  mantissa : Nat
  exponent : Int
  narrow : Bool
  deriving DecidableEq, Repr

/-- Takes the bits of a finite number apart, leaving its sign out. -/
def Binary.ofBits (bits : UInt64) : Binary :=
  let fraction : Nat := bits.toNat % Nat.pow 2 52
  let biased : Nat := bits.toNat / Nat.pow 2 52 % 2048
  if biased = 0 then ⟨fraction, -1074, false⟩
  else ⟨Nat.pow 2 52 + fraction, (biased : Int) - 1075, fraction = 0 ∧ 1 < biased⟩

/-- The quotient `m * 2 ^ q / 10 ^ k` as numerator and denominator. -/
def onGrid (m : Nat) (q k : Int) : Nat × Nat :=
  (m * Nat.pow 2 q.toNat * Nat.pow 10 (-k).toNat, Nat.pow 2 (-q).toNat * Nat.pow 10 k.toNat)

/-- Whether `d * 10 ^ k` rounds to the number: it lies between the middles of the two gaps, which
themselves round to it when the mantissa is even. -/
def Binary.roundsTo (b : Binary) (k : Int) (d : Nat) : Bool :=
  let (lowNum, lowDen) := onGrid (4 * b.mantissa - if b.narrow then 1 else 2) (b.exponent - 2) k
  let (highNum, highDen) := onGrid (4 * b.mantissa + 2) (b.exponent - 2) k
  if b.mantissa % 2 = 0 then lowNum ≤ d * lowDen && d * highDen ≤ highNum
  else lowNum < d * lowDen && d * highDen < highNum

/-- The decimal exponent of the leading digit of a positive number. -/
def Binary.magnitude (b : Binary) : Int :=
  let (num, den) := onGrid b.mantissa b.exponent 0
  if den ≤ num then ((Nat.toDigits 10 (num / den)).length : Int) - 1
  else match (List.range 330).find? fun j => den ≤ num * Nat.pow 10 j with
    | some j => -(j : Int)
    | none => -330

/-- The nearer of the two grid points around the number that rounds to it, on the grid that gives
`count` digits. -/
def Binary.digits? (b : Binary) (count : Nat) : Option (Nat × Int) :=
  let k := b.magnitude - count + 1
  let (num, den) := onGrid b.mantissa b.exponent k
  let below := num / den
  match b.roundsTo k below, b.roundsTo k (below + 1) with
  | true, true => some (if 2 * (num % den) ≤ den then below else below + 1, k)
  | true, false => some (below, k)
  | false, true => some (below + 1, k)
  | false, false => none

/-- The fewest digits that read back, and the power of ten of the last one. -/
def Binary.shortest (b : Binary) : Nat × Int :=
  (((List.range 17).map (· + 1)).findSome? b.digits?).getD (0, 0)

/-- Leaves trailing zeros out of the digits. -/
def trim (d : Nat) (k : Int) : Nat → Nat × Int
  | 0 => (d, k)
  | fuel + 1 => if d % 10 = 0 ∧ d ≠ 0 then trim (d / 10) (k + 1) fuel else (d, k)

/-- Lays digits out: positionally while the decimal point stands within sixteen places of the first
digit on the right and five on the left, else with an exponent behind the first digit. -/
def layOut (digits : List Char) (k : Int) : List Char :=
  let point := (digits.length : Int) + k
  if 0 ≤ k ∧ point ≤ 16 then digits ++ List.replicate k.toNat '0' ++ ['.', '0']
  else if 0 < point ∧ point ≤ 16 then
    digits.take point.toNat ++ ['.'] ++ digits.drop point.toNat
  else if -5 < point ∧ point ≤ 0 then
    ['0', '.'] ++ List.replicate (-point).toNat '0' ++ digits
  else
    let mark := 'e' :: (toString (point - 1)).toList
    match digits with
    | [d] => d :: mark
    | d :: rest => d :: '.' :: rest ++ mark
    | [] => mark

/-- The decimal text of the finite number with the given bits. -/
def text (bits : UInt64) : List Char :=
  let sign := if bits.toNat < Nat.pow 2 63 then [] else ['-']
  let b := Binary.ofBits bits
  if b.mantissa = 0 then sign ++ ['0', '.', '0']
  else
    let (d, k) := b.shortest
    let (d, k) := trim d k 17
    sign ++ layOut (Nat.toDigits 10 d) k

end StylePrint.Json.Shortest
