import StylePrint.Json.Basic
import StylePrint.Json.Shortest
/-!
The compact text of a JSON value: no blanks, members in their order, and no escapes but those of
the quote, the backslash and the control characters below the blank.
-/

namespace StylePrint.Json

/-- The lower-case hexadecimal digit of a number below sixteen. -/
def hexDigit (n : Nat) : Char :=
  if n < 10 then Char.ofNat (48 + n) else Char.ofNat (87 + n)

/-- A character as it is written inside quotes. -/
def escapeChar (c : Char) : List Char :=
  if c = '"' then ['\\', '"']
  else if c = '\\' then ['\\', '\\']
  else if c = '\x08' then ['\\', 'b']
  else if c = '\t' then ['\\', 't']
  else if c = '\n' then ['\\', 'n']
  else if c = '\x0c' then ['\\', 'f']
  else if c = '\r' then ['\\', 'r']
  else if c.toNat < 0x20 then
    ['\\', 'u', '0', '0', hexDigit (c.toNat / 16), hexDigit (c.toNat % 16)]
  else [c]

/-- A text in quotes. -/
def quote (s : String) : List Char :=
  '"' :: s.toList.flatMap escapeChar ++ ['"']

/-- The text of a number. -/
def Number.chars : Number → List Char
  | .integer (.ofNat n) => Nat.toDigits 10 n
  | .integer (.negSucc n) => '-' :: Nat.toDigits 10 (n + 1)
  | .float bits => Shortest.text bits

mutual

/-- The characters of a value's text. -/
def chars : Json → List Char
  | .null => ['n', 'u', 'l', 'l']
  | .bool true => ['t', 'r', 'u', 'e']
  | .bool false => ['f', 'a', 'l', 's', 'e']
  | .number n => n.chars
  | .string s => quote s
  | .array [] => ['[', ']']
  | .array (item :: rest) => '[' :: item.chars ++ itemsTail rest ++ [']']
  | .object [] => ['{', '}']
  | .object ((name, value) :: rest) =>
    '{' :: quote name ++ ':' :: value.chars ++ membersTail rest ++ ['}']

/-- The items after the first, each behind a comma. -/
def itemsTail : List Json → List Char
  | [] => []
  | item :: rest => ',' :: item.chars ++ itemsTail rest

/-- The members after the first, each behind a comma. -/
def membersTail : List (String × Json) → List Char
  | [] => []
  | (name, value) :: rest => ',' :: quote name ++ ':' :: value.chars ++ membersTail rest

end

/-- The compact text of a value. -/
def text (j : Json) : String :=
  String.ofList j.chars

example : (Json.object [("a", .array [.nat 1, .null]), ("b", .string "x\n\"")]).text
    = "\x7b\"a\":[1,null],\"b\":\"x\\n\\\"\"\x7d" := by decide

end StylePrint.Json
