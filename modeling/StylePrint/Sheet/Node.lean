import StylePrint.Json.Record
/-!
The syntax tree of a stylesheet. A node is a statement, which holds nothing below it, or a block,
whose head says what kind of block it is and what it is about; both may carry the position they
were read from.
-/

namespace StylePrint.Sheet

/-! ### Positions -/

/-- A line and a column of the text a node was read from, both counted from one. -/
structure Location where
  line : UInt32
  column : UInt32
  deriving DecidableEq, Repr

/-- Where a node was read from. -/
structure Position where
  start : Location
  finish : Location := ⟨0, 0⟩
  /-- The name of the source file. -/
  source : Option String := none
  /-- The whole text of the source file. -/
  content : Option String := none
  deriving DecidableEq, Repr

/-! ### Nodes -/

/-- A construct without nodes below it. -/
inductive Statement where
  | declaration (property value : String)
  | comment (text : String)
  | charset (value : String)
  | customMedia (name query : String)
  | atImport (value : String)
  | atNamespace (value : String)
  deriving DecidableEq, Repr, Inhabited

/-- What a block is about: everything but the nodes inside it. -/
inductive Head where
  /-- A whole stylesheet, with the errors its reader went past. -/
  | stylesheet (source : Option String) (parsingErrors : List Json)
  | rule (selectors : List String)
  | document (address : String) (vendor : Option String)
  | fontFace
  | host
  | keyframes (name : String) (vendor : Option String)
  | keyframe (values : List String)
  | media (query : String)
  | page (selectors : List String)
  | supports (condition : String)
  deriving Repr

/-- A node of the tree. -/
inductive Node where
  | statement (content : Statement) (position : Option Position)
  | block (head : Head) (children : List Node) (position : Option Position)
  deriving Repr, Inhabited

/-! ### Kinds -/

/-- The kinds of nodes, in the order in which a number may stand for them. -/
inductive Kind where
  | stylesheet | rule | declaration | comment | charset | customMedia | document | fontFace | host
  | atImport | keyframes | keyframe | media | atNamespace | page | supports
  deriving DecidableEq, Repr

namespace Kind

/-- All kinds in their order. -/
def all : List Kind :=
  [.stylesheet, .rule, .declaration, .comment, .charset, .customMedia, .document, .fontFace, .host,
   .atImport, .keyframes, .keyframe, .media, .atNamespace, .page, .supports]

/-- The name that tags a kind. -/
def name : Kind → String
  | .stylesheet => "stylesheet"
  | .rule => "rule"
  | .declaration => "declaration"
  | .comment => "comment"
  | .charset => "charset"
  | .customMedia => "custom-media"
  | .document => "document"
  | .fontFace => "font-face"
  | .host => "host"
  | .atImport => "import"
  | .keyframes => "keyframes"
  | .keyframe => "keyframe"
  | .media => "media"
  | .atNamespace => "namespace"
  | .page => "page"
  | .supports => "supports"

/-- The kind with a given name. -/
def ofName? (name : String) : Option Kind :=
  all.find? fun kind => kind.name = name

@[simp] theorem ofName?_name (kind : Kind) : ofName? kind.name = some kind := by
  cases kind <;> decide

end Kind

/-- The kind of a statement. -/
def Statement.kind : Statement → Kind
  | .declaration _ _ => .declaration
  | .comment _ => .comment
  | .charset _ => .charset
  | .customMedia _ _ => .customMedia
  | .atImport _ => .atImport
  | .atNamespace _ => .atNamespace

/-- The kind of a block. -/
def Head.kind : Head → Kind
  | .stylesheet _ _ => .stylesheet
  | .rule _ => .rule
  | .document _ _ => .document
  | .fontFace => .fontFace
  | .host => .host
  | .keyframes _ _ => .keyframes
  | .keyframe _ => .keyframe
  | .media _ => .media
  | .page _ => .page
  | .supports _ => .supports

namespace Node

/-- The kind of a node. -/
def kind : Node → Kind
  | .statement content _ => content.kind
  | .block head _ _ => head.kind

/-- Where a node was read from. -/
def position : Node → Option Position
  | .statement _ position => position
  | .block _ _ position => position

/-- A node with another position. -/
def withPosition (position : Position) : Node → Node
  | .statement content _ => .statement content (some position)
  | .block head children _ => .block head children (some position)

end Node

end StylePrint.Sheet
