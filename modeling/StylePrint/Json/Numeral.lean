import StylePrint.Json.Basic
/-!
Numerals, the way JSON writes numbers. A numeral without a fraction and an exponent that fits 64
bits is an integer; any other is a binary64 number, found by the quick conversion: the digits are
cut where they leave 64 bits, and the power of ten is applied in floating-point arithmetic.
-/

namespace StylePrint.Json

/-- A numeral, taken apart. -/
structure Numeral where
  negative : Bool
  whole : List Char
  fraction : Option (List Char)
  /-- Whether the exponent is negative, and its digits. -/
  exponent : Option (Bool × List Char)
  deriving DecidableEq, Repr

namespace Numeral

/-! ### Grammar -/

/-- Splits a run of digits off the front. -/
def digits (cs : List Char) : List Char × List Char :=
  (cs.takeWhile Char.isDigit, cs.dropWhile Char.isDigit)

/-- Reads the exponent, which ends the numeral. -/
def exponent? : List Char → Option (Option (Bool × List Char))
  | [] => some none
  | mark :: rest =>
    if mark = 'e' ∨ mark = 'E' then
      let (negative, ds) := match rest with
        | '-' :: more => (true, more)
        | '+' :: more => (false, more)
        | _ => (false, rest)
      if ds ≠ [] ∧ ds.all Char.isDigit then some (some (negative, ds)) else none
    else none

/-- Reads the fraction, when a point begins one. -/
def fraction? : List Char → Option (Option (List Char) × List Char)
  | '.' :: rest =>
    match digits rest with
    | ([], _) => none
    | (ds, more) => some (some ds, more)
  | cs => some (none, cs)

/-- Reads an unsigned numeral: no zero stands before another digit of the whole part. -/
def unsigned? (negative : Bool) (cs : List Char) : Option Numeral :=
  match digits cs with
  | ([], _) => none
  | ('0' :: _ :: _, _) => none
  | (whole, rest) => do
    let (fraction, rest) ← fraction? rest
    let exponent ← exponent? rest
    return { negative, whole, fraction, exponent }

/-- Reads a numeral that takes up all the characters. -/
def ofChars? : List Char → Option Numeral
  | '-' :: cs => unsigned? true cs
  | cs => unsigned? false cs

/-! ### Value -/

/-- The value of a digit. -/
def digitValue (c : Char) : Nat := c.toNat - 48

/-- The number written by decimal digits. -/
def decimal (ds : List Char) : Nat := Nat.ofDigitChars 10 ds 0

/-- Takes digits into a 64-bit significand until one does not fit; also the number of digits that
are left. -/
def fill (significand : Nat) : List Char → Nat × Nat
  | [] => (significand, 0)
  | d :: rest =>
    let next := significand * 10 + digitValue d
    if next < UInt64.size then fill next rest else (significand, rest.length + 1)

/-- A power of ten that binary64 can hold. -/
def powerOfTen (n : Nat) : Float := Float.ofScientific 1 false n

/-- Divides by a power of ten, at most the 308th at a time. -/
def shrink (x : Float) (n : Nat) : Float :=
  if n ≤ 308 then x / powerOfTen n
  else if x == 0 then x
  else shrink (x / powerOfTen 308) (n - 308)
termination_by n

/-- The binary64 number nearest to the significand times a power of ten, as far as the quick
conversion finds it; `none` when it leaves the range. -/
def scale? (significand : Nat) (power : Int) : Option Float :=
  let x := (UInt64.ofNat significand).toFloat
  if power < 0 then some (shrink x power.natAbs)
  else if power ≤ 308 then
    let y := x * powerOfTen power.natAbs
    if y.isInf then none else some y
  else if significand = 0 then some x
  else none

/-- The numeral as a binary64 number; `none` when it leaves the range. An exponent past 31 bits
is either out of range or zero. -/
def float? (n : Numeral) : Option Float := do
  let (significand, dropped) := fill 0 n.whole
  let fraction := n.fraction.getD []
  let (significand, unread) := fill significand fraction
  let power : Int := dropped - (fraction.length - unread : Nat)
  let magnitude ← match n.exponent with
    | none => scale? significand power
    | some (negative, ds) =>
      let e := decimal ds
      if e ≤ 2147483647 then scale? significand (power + if negative then -(e : Int) else e)
      else if negative ∨ significand = 0 then some 0
      else none
  return if n.negative then -magnitude else magnitude

/-- The integer a numeral without fraction and exponent writes, when 64 bits hold it; minus zero
is no integer. -/
def integer? (n : Numeral) : Option Int :=
  match n.fraction, n.exponent with
  | none, none =>
    let v := decimal n.whole
    if n.negative then
      if 0 < v ∧ v ≤ Nat.pow 2 63 then some (-(v : Int)) else none
    else if v < UInt64.size then some v else none
  | _, _ => none

/-- The number a numeral writes; `none` when it is out of range. -/
def number? (n : Numeral) : Option Number :=
  match n.integer? with
  | some v => some (.integer v)
  | none => n.float?.map fun x => .float x.toBits

end Numeral

end StylePrint.Json
