import StylePrint.Json.Numeral
/-!
The lexical level of JSON: text cut into brackets, separators, words, numerals and strings.

The scanner takes one character at a time. A string is read whether or not it stands for a text:
an escape that names half of a surrogate pair is in order lexically, so the token then carries no
text, and the reader above decides whether that matters.
-/

namespace StylePrint.Json

/-- A lexical unit of JSON text. -/
inductive Token where
  | openBrace | closeBrace | openBracket | closeBracket | colon | comma
  | null
  | bool (value : Bool)
  | number (numeral : Numeral)
  /-- A string, with its text unless it holds half of a surrogate pair. -/
  | string (text : Option String)
  deriving DecidableEq, Repr

namespace Token

/-! ### Strings -/

/-- Where the scanner stands in a string's escapes. -/
inductive Escape where
  | none
  /-- Behind a backslash. -/
  | begun
  /-- Behind `\u` and some digits: the number of digits due, and the value so far. -/
  | hex (due : Nat) (value : Nat)
  deriving DecidableEq, Repr

/-- A string in the course of being read. -/
structure Body where
  /-- The characters so far, last first. -/
  done : List Char
  /-- Whether every surrogate so far has its partner. -/
  paired : Bool
  /-- A high surrogate that waits for a low one. -/
  high : Option Nat
  escape : Escape
  deriving DecidableEq, Repr

namespace Body

/-- The string behind its opening quote. -/
def start : Body := ⟨[], true, none, .none⟩

/-- Takes in a character; a high surrogate before it stays without partner. -/
def push (b : Body) (c : Char) : Body :=
  ⟨c :: b.done, b.paired && b.high.isNone, none, .none⟩

/-- Takes in a UTF-16 code unit that an escape names. -/
def pushUnit (b : Body) (unit : Nat) : Body :=
  if 0xD800 ≤ unit ∧ unit ≤ 0xDBFF then
    ⟨b.done, b.paired && b.high.isNone, some unit, .none⟩
  else if 0xDC00 ≤ unit ∧ unit ≤ 0xDFFF then
    match b.high with
    | some high =>
      ⟨Char.ofNat (0x10000 + (high - 0xD800) * 0x400 + (unit - 0xDC00)) :: b.done, b.paired, none,
        .none⟩
    | none => ⟨b.done, false, none, .none⟩
  else b.push (Char.ofNat unit)

/-- The text of the string, when all its surrogates are paired. -/
def text? (b : Body) : Option String :=
  if b.paired ∧ b.high = none then some (String.ofList b.done.reverse) else none

/-- The value of a hexadecimal digit, in either case. -/
def hexValue? (c : Char) : Option Nat :=
  if '0' ≤ c ∧ c ≤ '9' then some (c.toNat - 48)
  else if 'a' ≤ c ∧ c ≤ 'f' then some (c.toNat - 87)
  else if 'A' ≤ c ∧ c ≤ 'F' then some (c.toNat - 55)
  else none

/-- The character a one-letter escape stands for. -/
def escaped? (c : Char) : Option Char :=
  if c = '"' ∨ c = '\\' ∨ c = '/' then some c
  else if c = 'b' then some '\x08'
  else if c = 'f' then some '\x0c'
  else if c = 'n' then some '\n'
  else if c = 'r' then some '\r'
  else if c = 't' then some '\t'
  else none

end Body

/-! ### The scanner -/

/-- What the scanner is in the middle of. -/
inductive Mode where
  | between
  /-- A word or numeral, its characters last first. -/
  | bare (done : List Char)
  | string (body : Body)
  deriving DecidableEq, Repr

/-- The scanner: its mode, and the tokens so far, last first. -/
structure Scanner where
  mode : Mode
  done : List Token
  deriving DecidableEq, Repr

/-- Whether a character is a blank of JSON. -/
def isBlank (c : Char) : Bool :=
  c = ' ' || c = '\n' || c = '\t' || c = '\r'

/-- The token of a bracket or separator. -/
def punctuation? (c : Char) : Option Token :=
  if c = '{' then some .openBrace
  else if c = '}' then some .closeBrace
  else if c = '[' then some .openBracket
  else if c = ']' then some .closeBracket
  else if c = ':' then some .colon
  else if c = ',' then some .comma
  else none

/-- The token of a word or numeral. -/
def ofBare? (cs : List Char) : Option Token :=
  if cs = ['n', 'u', 'l', 'l'] then some .null
  else if cs = ['t', 'r', 'u', 'e'] then some (.bool true)
  else if cs = ['f', 'a', 'l', 's', 'e'] then some (.bool false)
  else (Numeral.ofChars? cs).map .number

/-- Takes a character that stands between tokens or begins one. -/
def Scanner.begin (done : List Token) (c : Char) : Scanner :=
  if isBlank c then ⟨.between, done⟩
  else if c = '"' then ⟨.string Body.start, done⟩
  else match punctuation? c with
    | some token => ⟨.between, token :: done⟩
    | none => ⟨.bare [c], done⟩

/-- Takes a character inside a string. -/
def Scanner.inString (body : Body) (done : List Token) (c : Char) : Option Scanner :=
  match body.escape with
  | .none =>
    if c = '"' then some ⟨.between, .string body.text? :: done⟩
    else if c = '\\' then some ⟨.string { body with escape := .begun }, done⟩
    else if c.toNat < 0x20 then none
    else some ⟨.string (body.push c), done⟩
  | .begun =>
    if c = 'u' then some ⟨.string { body with escape := .hex 4 0 }, done⟩
    else (Body.escaped? c).map fun plain => ⟨.string (body.push plain), done⟩
  | .hex due value => do
    let value := value * 16 + (← Body.hexValue? c)
    if due ≤ 1 then return ⟨.string (body.pushUnit value), done⟩
    else return ⟨.string { body with escape := .hex (due - 1) value }, done⟩

/-- Takes one character. -/
def Scanner.step (s : Scanner) (c : Char) : Option Scanner :=
  match s.mode with
  | .between => some (Scanner.begin s.done c)
  | .string body => Scanner.inString body s.done c
  | .bare cs =>
    if isBlank c ∨ c = '"' ∨ (punctuation? c).isSome then do
      let token ← ofBare? cs.reverse
      return Scanner.begin (token :: s.done) c
    else some ⟨.bare (c :: cs), s.done⟩

/-- Ends the text: no string may be open. -/
def Scanner.finish (s : Scanner) : Option (List Token) :=
  match s.mode with
  | .between => some s.done.reverse
  | .string _ => none
  | .bare cs => do
    let token ← ofBare? cs.reverse
    return (token :: s.done).reverse

/-- The tokens of a text; `none` when some part of it is no token. -/
def scan? (cs : List Char) : Option (List Token) := do
  (← cs.foldlM Scanner.step ⟨.between, []⟩).finish

/-! ### Nesting -/

/-- The depth behind a token, given the depth before it. -/
def depthAfter (depth : Nat) : Token → Nat
  | .openBrace | .openBracket => depth + 1
  | .closeBrace | .closeBracket => depth - 1
  | _ => depth

/-- The greatest number of brackets that are open at once. -/
def nesting (tokens : List Token) : Nat :=
  (tokens.foldl (fun (depth, most) token =>
    (depthAfter depth token, max most (depthAfter depth token))) (0, 0)).2

end Token

end StylePrint.Json
