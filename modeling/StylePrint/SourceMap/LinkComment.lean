import StylePrint.Text.Blank
/-!
The annotation at the end of a text that names its source map: a comment with
`# sourceMappingURL=` or `@ sourceMappingURL=` and an address, followed by nothing but white space.
A block comment may begin with white space that ends in a line break, and then with two slashes; a
line comment begins with two slashes. Of several annotations that fit, the one that begins first
counts.
-/

namespace StylePrint.SourceMap.LinkComment

/-- Takes a literal off the front. -/
def after? (literal cs : List Char) : Option (List Char) :=
  if literal.isPrefixOf cs then some (cs.drop literal.length) else none

/-- The word behind the mark that begins an annotation, up to its address. -/
def keyword : List Char := " sourceMappingURL=".toList

/-- Takes the mark and the keyword off the front. -/
def afterKeyword? : List Char → Option (List Char)
  | mark :: rest => if mark = '#' ∨ mark = '@' then after? keyword rest else none
  | [] => none

/-- Whether a character may stand in the address. -/
def isAddressChar (c : Char) : Bool :=
  !Text.isBlank c && c ≠ '\x27' && c ≠ '\x22'

/-- Takes off the blank lead of a block comment: nothing, or white space that ends in a line break
and then perhaps two slashes. -/
def afterLead? (cs : List Char) : Option (List Char) :=
  let rest := cs.dropWhile Text.isBlank
  match (cs.takeWhile Text.isBlank).getLast? with
  | none => some rest
  | some '\n' => some ((after? ['/', '/'] rest).getD rest)
  | some _ => none

/-- Whether the characters are white space. -/
def isBlankTail (cs : List Char) : Bool := cs.all Text.isBlank

/-- Whether the characters end a block comment and the text: white space may stand on both sides of
the closing mark. -/
def closesBlock (cs : List Char) : Bool :=
  match after? ['*', '/'] (cs.dropWhile Text.isBlank) with
  | some tail => isBlankTail tail
  | none => false

/-- The address of a block comment, given the characters from the address on. The closing mark may
follow the address directly, and is then no part of it. -/
def blockAddress? (cs : List Char) : Option (List Char) :=
  let address := cs.takeWhile isAddressChar
  let rest := cs.dropWhile isAddressChar
  if closesBlock rest then some address
  else if isBlankTail rest ∧ ['*', '/'].isSuffixOf address then
    some (address.take (address.length - 2))
  else none

/-- The address of the block annotation that the characters are. -/
def block? (cs : List Char) : Option (List Char) := do
  let cs ← after? ['/', '*'] cs
  let cs ← afterLead? cs
  blockAddress? (← afterKeyword? cs)

/-- The address of the line annotation that the characters are. -/
def line? (cs : List Char) : Option (List Char) := do
  let cs ← after? ['/', '/'] cs
  let cs ← afterKeyword? cs
  if isBlankTail (cs.dropWhile isAddressChar) then return cs.takeWhile isAddressChar
  else none

/-- The address of the annotation that the characters are. -/
def whole? (cs : List Char) : Option (List Char) :=
  (block? cs).or (line? cs)

/-- The address of the longest annotation that ends the characters. -/
def find? : List Char → Option (List Char)
  | [] => none
  | c :: cs => (whole? (c :: cs)).or (find? cs)

/-- The address that a text's annotation names. -/
def address? (code : String) : Option String :=
  (find? code.toList).map String.ofList

example : address? "a\x7b\x7d\n/*# sourceMappingURL=a.css.map */\n" = some "a.css.map" := by
  decide +kernel

end StylePrint.SourceMap.LinkComment
