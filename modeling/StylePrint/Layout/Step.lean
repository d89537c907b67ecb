import StylePrint.Sheet.Node
/-!
The steps in which a tree is printed: pieces of text, margins, moves between levels of nesting, and
marks that tie the place reached so far to a position of the tree. Also the wording that all
layouts share.
-/

namespace StylePrint.Layout

open StylePrint.Sheet

/-- One step of printing. -/
inductive Step where
  /-- What is printed next was read from here. -/
  | mark (position : Position)
  | text (content : String)
  /-- The indentation of the current level. -/
  | margin
  /-- Moves one level in. -/
  | nest
  /-- Moves one level out. -/
  | unnest
  deriving DecidableEq, Repr

/-- The mark for a node's position, if it has one. -/
def marks (position : Option Position) : List Step :=
  position.toList.map .mark

/-- Whether a block prints nothing: a rule without anything inside. -/
def vanishes (head : Head) (children : List Node) : Bool :=
  match head with
  | .rule _ => children.isEmpty
  | _ => false

/-- The line of an at-statement. -/
def atLine (keyword value : String) : String :=
  "@" ++ keyword ++ " " ++ value ++ ";"

/-- The header of a block that begins with a keyword, a vendor in front of it, and an argument. -/
def atHeader (vendor : Option String) (keyword argument : String) : String :=
  "@" ++ vendor.getD "" ++ keyword ++ " " ++ argument

end StylePrint.Layout
