import StylePrint.Options
/-!
Options in a configuration file: a line for each option, with a key, an equals sign and a value, and
lines with comments. A value is a truth value, an integer of 64 bits, or a string in quotes.

This is a part of TOML. Left out are literal and multi-line strings, floating-point numbers, dates
and times, arrays, inline tables, dotted and literal keys, and the headers of tables; a line that
has one of them is refused as a malformed line is.
-/

namespace StylePrint.Config

/-- Why a configuration is refused. -/
inductive Fault where
  /-- The line with this number, from one on. -/
  | line (number : Nat)
  | repeatedKey (key : String)
  | options (fault : OptionsFault)
  deriving DecidableEq, Repr

/-- The wording of a refusal. -/
def Fault.message : Fault → String
  | .line number => "malformed line " ++ toString number
  | .repeatedKey key => "repeated key " ++ key
  | .options fault => fault.message

/-! ### Characters -/

/-- Whether a character is a blank inside a line. -/
def isBlank (c : Char) : Bool := c = ' ' || c = '\t'

/-- Whether a character may not stand in a file as it is. -/
def isControl (c : Char) : Bool := c.toNat < 0x20 && c ≠ '\t' || c.toNat = 0x7F

/-- Whether a character may stand in a key without quotes. -/
def isBareKeyChar (c : Char) : Bool := c.isAlphanum || c = '-' || c = '_'

/-- Takes the blanks off the front. -/
def skipBlanks (cs : List Char) : List Char := cs.dropWhile isBlank

/-! ### Strings -/

/-- The value of a digit in some base up to sixteen. -/
def digit? (base : Nat) (c : Char) : Option Nat :=
  let v := c.toNat
  let d :=
    if 48 ≤ v ∧ v ≤ 57 then v - 48
    else if 97 ≤ v ∧ v ≤ 102 then v - 87
    else if 65 ≤ v ∧ v ≤ 70 then v - 55
    else base
  if d < base then some d else none

/-- The number that digits of some base write. -/
def number? (base : Nat) (cs : List Char) : Option Nat :=
  cs.foldlM (fun n c => (digit? base c).map (n * base + ·)) 0

/-- The character whose code point hexadecimal digits write. -/
def codePoint? (cs : List Char) : Option Char := do
  let n ← number? 16 cs
  if n.isValidChar then return Char.ofNat n else none

/-- The character a one-letter escape stands for. -/
def escaped? (c : Char) : Option Char :=
  if c = 'b' then some '\x08'
  else if c = 't' then some '\t'
  else if c = 'n' then some '\n'
  else if c = 'f' then some '\x0c'
  else if c = 'r' then some '\r'
  else if c = '"' ∨ c = '\\' then some c
  else none

/-- Reads a string behind its opening quote: its characters, and what follows the closing one. -/
def quoted? : List Char → Option (List Char × List Char)
  | [] => none
  | '"' :: rest => some ([], rest)
  | '\\' :: 'u' :: a :: b :: c :: d :: rest => do
    let first ← codePoint? [a, b, c, d]
    let (more, rest) ← quoted? rest
    return (first :: more, rest)
  | '\\' :: 'U' :: a :: b :: c :: d :: e :: f :: g :: h :: rest => do
    let first ← codePoint? [a, b, c, d, e, f, g, h]
    let (more, rest) ← quoted? rest
    return (first :: more, rest)
  | '\\' :: letter :: rest => do
    let first ← escaped? letter
    let (more, rest) ← quoted? rest
    return (first :: more, rest)
  | c :: rest =>
    if c = '\\' ∨ isControl c then none
    else do
      let (more, rest) ← quoted? rest
      return (c :: more, rest)

/-! ### Integers -/

/-- Digits without the underscores that may stand singly between them. -/
def ungrouped? (cs : List Char) : Option (List Char) :=
  let groups := cs.splitOn '_'
  if groups.all fun group => !group.isEmpty then some groups.flatten else none

/-- The natural number that decimal digits write, without a zero in front of others. -/
def natural? (cs : List Char) : Option Nat :=
  match cs with
  | '0' :: _ :: _ => none
  | _ => do number? 10 (← ungrouped? cs)

/-- An integer: decimal with an optional sign, or in a base that its first two characters name. -/
def unbounded? : List Char → Option Int
  | '0' :: 'x' :: cs => do return Int.ofNat (← number? 16 (← ungrouped? cs))
  | '0' :: 'o' :: cs => do return Int.ofNat (← number? 8 (← ungrouped? cs))
  | '0' :: 'b' :: cs => do return Int.ofNat (← number? 2 (← ungrouped? cs))
  | '-' :: cs => do return -Int.ofNat (← natural? cs)
  | '+' :: cs => do return Int.ofNat (← natural? cs)
  | cs => do return Int.ofNat (← natural? cs)

/-- An integer of 64 bits. -/
def integer? (cs : List Char) : Option Int := do
  let n ← unbounded? cs
  if Int64.minValue.toInt ≤ n ∧ n ≤ Int64.maxValue.toInt then return n else none

/-! ### Lines -/

/-- Reads a key, with quotes or without: its characters, and what follows. -/
def key? : List Char → Option (List Char × List Char)
  | '"' :: rest => quoted? rest
  | cs =>
    match cs.takeWhile isBareKeyChar with
    | [] => none
    | key => some (key, cs.dropWhile isBareKeyChar)

/-- The value of a word without quotes. -/
def bareValue? (cs : List Char) : Option Json :=
  if cs = ['t', 'r', 'u', 'e'] then some (.bool true)
  else if cs = ['f', 'a', 'l', 's', 'e'] then some (.bool false)
  else (integer? cs).map fun n => .number (.integer n)

/-- Reads a value: the value, and what follows. -/
def value? : List Char → Option (Json × List Char)
  | '"' :: rest => (quoted? rest).map fun (cs, rest) => (.string (String.ofList cs), rest)
  | cs =>
    let isWordChar (c : Char) : Bool := !isBlank c && c ≠ '#'
    (bareValue? (cs.takeWhile isWordChar)).map fun value => (value, cs.dropWhile isWordChar)

/-- Whether characters may end a line: nothing, or a comment. -/
def isLineEnd : List Char → Bool
  | [] => true
  | '#' :: comment => !comment.any isControl
  | _ => false

/-- Reads a line: an option, or nothing. -/
def line? (cs : List Char) : Option (Option (String × Json)) :=
  let cs := skipBlanks cs
  if isLineEnd cs then some none
  else do
    let (key, rest) ← key? cs
    match skipBlanks rest with
    | '=' :: rest =>
      let (value, rest) ← value? (skipBlanks rest)
      if isLineEnd (skipBlanks rest) then return some (String.ofList key, value) else none
    | _ => none

/-- The lines of a file. A carriage return in front of a line break belongs to the break. -/
def lines (cs : List Char) : List (List Char) :=
  let parts := cs.splitOn '\n'
  let chopped := parts.dropLast.map fun part =>
    if part.getLast? = some '\r' then part.dropLast else part
  chopped ++ parts.getLast?.toList

/-- Reads lines, the first of which has a given number, behind the options read so far. -/
def entries (done : List (String × Json)) (number : Nat) :
    List (List Char) → Except Fault (List (String × Json))
  | [] => .ok done
  | cs :: rest =>
    match line? cs with
    | none => .error (.line number)
    | some none => entries done (number + 1) rest
    | some (some (key, value)) =>
      if (done.lookup key).isSome then .error (.repeatedKey key)
      else entries (Json.insertMember key value done) (number + 1) rest

/-- Takes a byte order mark off the front. -/
def skipMark : List Char → List Char
  | '\uFEFF' :: cs => cs
  | cs => cs

/-- The options of a configuration file. -/
def parse (text : String) : Except Fault Options := do
  let members ← entries [] 1 (lines (skipMark text.toList))
  (Options.ofJson (.object members)).mapError .options

end StylePrint.Config
