import StylePrint.Json.Token
/-!
JSON as it is written: the tree of a text before it is settled which of its strings and numerals
have a value. `Written.ofTokens?` builds the tree with an explicit stack of open containers,
`Written.value?` turns it into a JSON value, and `Json.parse?` does all of it for a text.
-/

namespace StylePrint.Json

/-- The tree of a JSON text. A string without a text holds half of a surrogate pair. -/
inductive Written where
  | null
  | bool (value : Bool)
  | number (numeral : Numeral)
  | string (text : Option String)
  | array (items : List Written)
  | object (members : List (Option String × Written))
  deriving Repr, Inhabited

namespace Written

/-! ### From tokens to the tree -/

/-- A container that is still open, its contents last first. -/
inductive Frame where
  | array (done : List Written)
  | object (done : List (Option String × Written))
  /-- An object whose next member has its name but no value yet. -/
  | member (done : List (Option String × Written)) (name : Option String)
  deriving Repr, Inhabited

/-- What may come next. -/
inductive Due where
  | value
  /-- Behind an opening bracket. -/
  | valueOrClose
  /-- Behind an opening brace. -/
  | nameOrClose
  | name
  | colon
  /-- Behind a value inside a container. -/
  | commaOrClose
  deriving DecidableEq, Repr

/-- A text in the course of being read. -/
inductive Progress where
  | reading (open_ : List Frame) (due : Due)
  | finished (tree : Written)
  deriving Repr, Inhabited

/-- Hands a whole value to the innermost open container. -/
def deliver (tree : Written) : List Frame → Option Progress
  | [] => some (.finished tree)
  | .array done :: rest => some (.reading (.array (tree :: done) :: rest) .commaOrClose)
  | .member done name :: rest =>
    some (.reading (.object ((name, tree) :: done) :: rest) .commaOrClose)
  | .object _ :: _ => none

/-- Begins or delivers a value. -/
def takeValue (frames : List Frame) : Token → Option Progress
  | .null => deliver .null frames
  | .bool b => deliver (.bool b) frames
  | .number n => deliver (.number n) frames
  | .string s => deliver (.string s) frames
  | .openBracket => some (.reading (.array [] :: frames) .valueOrClose)
  | .openBrace => some (.reading (.object [] :: frames) .nameOrClose)
  | _ => none

/-- Takes the name of a member. -/
def takeName (frames : List Frame) : Token → Option Progress
  | .string name =>
    match frames with
    | .object done :: rest => some (.reading (.member done name :: rest) .colon)
    | _ => none
  | _ => none

/-- Closes the innermost open container. -/
def close (frames : List Frame) : Token → Option Progress
  | .closeBracket =>
    match frames with
    | .array done :: rest => deliver (.array done.reverse) rest
    | _ => none
  | .closeBrace =>
    match frames with
    | .object done :: rest => deliver (.object done.reverse) rest
    | _ => none
  | _ => none

/-- What a comma in the innermost open container announces. -/
def afterComma : List Frame → Option Due
  | .array _ :: _ => some .value
  | .object _ :: _ => some .name
  | _ => none

/-- Takes one token. -/
def Progress.step : Progress → Token → Option Progress
  | .finished _, _ => none
  | .reading frames .value, token => takeValue frames token
  | .reading frames .valueOrClose, token =>
    if token = .closeBracket then close frames token else takeValue frames token
  | .reading frames .nameOrClose, token =>
    if token = .closeBrace then close frames token else takeName frames token
  | .reading frames .name, token => takeName frames token
  | .reading frames .colon, token => if token = .colon then some (.reading frames .value) else none
  | .reading frames .commaOrClose, token =>
    if token = .comma then (afterComma frames).map (.reading frames) else close frames token

/-- The tree that tokens spell. -/
def ofTokens? (tokens : List Token) : Option Written :=
  match tokens.foldlM Progress.step (.reading [] .value) with
  | some (.finished tree) => some tree
  | _ => none

/-- The tree of a text. -/
def parse? (text : String) : Option Written :=
  (Token.scan? text.toList).bind ofTokens?

/-! ### Values -/

mutual

/-- The value of a tree, when each of its strings and numerals has one. -/
def value? : Written → Option Json
  | .null => some .null
  | .bool b => some (.bool b)
  | .number n => n.number?.map .number
  | .string s => s.map .string
  | .array items => (itemValues? items).map .array
  | .object members => (memberValues? members).map fun values => .object (sortMembers values)

/-- The values of the items. -/
def itemValues? : List Written → Option (List Json)
  | [] => some []
  | item :: rest => do
    let value ← item.value?
    let values ← itemValues? rest
    return value :: values

/-- The members with their values, in the order of the text. -/
def memberValues? : List (Option String × Written) → Option (List (String × Json))
  | [] => some []
  | (name, tree) :: rest => do
    let name ← name
    let value ← tree.value?
    let values ← memberValues? rest
    return (name, value) :: values

end

/-- Reads a record whose members may stand in any order but not twice: the members named in
`names`, and no others, with their values. The other members need a name and no value. An array
is a record that names its fields by their place. -/
def record? (names : List String) : Written → Option Json
  | .object members => do
    let named ← members.mapM fun (name, tree) => name.map (·, tree)
    let known := named.filter fun member => names.contains member.1
    if (known.map (·.1)).Nodup then
      let values ← known.mapM fun (name, tree) => tree.value?.map (name, ·)
      return .object values
    else none
  | tree => tree.value?

end Written

/-- The deepest nesting of brackets that a tree may have. -/
def maxNesting : Nat := 127

/-- The value of a JSON text. -/
def parse? (text : String) : Option Json := do
  let tokens ← Token.scan? text.toList
  if Token.nesting tokens ≤ maxNesting then (← Written.ofTokens? tokens).value? else none

end StylePrint.Json
