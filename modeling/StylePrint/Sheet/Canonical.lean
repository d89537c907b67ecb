import StylePrint.Json.Printer
import StylePrint.Sheet.Node
/-!
The canonical JSON of a tree: the tag first, then the fields of each kind in a fixed order, with
absent values left out and empty lists written. `Node.key` is its text.
-/

namespace StylePrint.Sheet

/-- A member for an optional value, left out when there is none. -/
def member? (name : String) (value : Option Json) : List (String × Json) :=
  (value.map (name, ·)).toList

/-- An array of texts. -/
def texts (items : List String) : Json :=
  .array (items.map .string)

/-- The JSON of a location. -/
def Location.toJson (l : Location) : Json :=
  .object [("line", .word l.line), ("column", .word l.column)]

/-- The JSON of a position. -/
def Position.toJson (p : Position) : Json :=
  .object <|
    [("start", p.start.toJson), ("end", p.finish.toJson)]
    ++ member? "source" (p.source.map .string) ++ member? "content" (p.content.map .string)

/-- The members a node ends with. -/
def positionMember (position : Option Position) : List (String × Json) :=
  member? "position" (position.map Position.toJson)

/-- The members of a statement between its tag and its position. -/
def Statement.members : Statement → List (String × Json)
  | .declaration property value => [("property", .string property), ("value", .string value)]
  | .comment text => [("comment", .string text)]
  | .charset value => [("charset", .string value)]
  | .customMedia name query => [("name", .string name), ("media", .string query)]
  | .atImport value => [("import", .string value)]
  | .atNamespace value => [("namespace", .string value)]

/-- The members of a block between its tag and its position, given its nodes. -/
def Head.members (children : Json) : Head → List (String × Json)
  | .stylesheet source parsingErrors =>
    [("stylesheet", .object <|
      member? "source" (source.map .string) ++ [("rules", children)]
      ++ if parsingErrors.isEmpty then [] else [("parsingErrors", .array parsingErrors)])]
  | .rule selectors => [("selectors", texts selectors), ("declarations", children)]
  | .document address vendor =>
    [("document", .string address)] ++ member? "vendor" (vendor.map .string)
      ++ [("rules", children)]
  | .fontFace => [("declarations", children)]
  | .host => [("rules", children)]
  | .keyframes name vendor =>
    [("name", .string name)] ++ member? "vendor" (vendor.map .string)
      ++ [("keyframes", children)]
  | .keyframe values => [("values", texts values), ("declarations", children)]
  | .media query => [("media", .string query), ("rules", children)]
  | .page selectors => [("selectors", texts selectors), ("declarations", children)]
  | .supports condition => [("supports", .string condition), ("rules", children)]

/-- A node's object: its tag, its members and its position. -/
def tagged (kind : Kind) (members : List (String × Json)) (position : Option Position) : Json :=
  .object (("type", .string kind.name) :: members ++ positionMember position)

mutual

/-- The canonical JSON of a node. -/
def Node.toJson : Node → Json
  | .statement content position => tagged content.kind content.members position
  | .block head children position =>
    tagged head.kind (head.members (.array (Node.toJsons children))) position

/-- The canonical JSON of nodes. -/
def Node.toJsons : List Node → List Json
  | [] => []
  | node :: rest => node.toJson :: Node.toJsons rest

end

/-- The canonical text of a node. -/
def Node.key (node : Node) : String :=
  node.toJson.text

end StylePrint.Sheet
