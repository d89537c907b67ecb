import StylePrint.Sheet.Node
/-!
Reading trees from JSON. A node is a record behind a tag: an object whose member `type` is the tag,
or an array that begins with it. The tag is the name of a kind; below the root it may also be the
kind's number.

The nodes below a node are read by recursion on the JSON, and the other fields from the record;
`assemble?` puts the two together.
-/

namespace StylePrint.Sheet

/-! ### Positions -/

/-- Reads a location. -/
def Location.ofJson? (j : Json) : Option Location := do
  let field ← j.fields? ["line", "column"]
  let line ← Json.required Json.word? (field "line")
  let column ← Json.required Json.word? (field "column")
  return { line, column }

/-- Reads a position. -/
def Position.ofJson? (j : Json) : Option Position := do
  let field ← j.fields? ["start", "end", "source", "content"]
  let start ← Json.required Location.ofJson? (field "start")
  let finish ← Json.defaulted Location.ofJson? ⟨0, 0⟩ (field "end")
  let source ← Json.optional Json.string? (field "source")
  let content ← Json.optional Json.string? (field "content")
  return { start, finish, source, content }

/-! ### Records -/

namespace Kind

/-- The fields of a kind of node, in their order. -/
def fieldNames : Kind → List String
  | .stylesheet => ["stylesheet", "position"]
  | .rule => ["selectors", "declarations", "position"]
  | .declaration => ["property", "value", "position"]
  | .comment => ["comment", "position"]
  | .charset => ["charset", "position"]
  | .customMedia => ["name", "media", "position"]
  | .document => ["document", "vendor", "rules", "position"]
  | .fontFace => ["declarations", "position"]
  | .host => ["rules", "position"]
  | .atImport => ["import", "position"]
  | .keyframes => ["name", "vendor", "keyframes", "position"]
  | .keyframe => ["values", "declarations", "position"]
  | .media => ["media", "rules", "position"]
  | .atNamespace => ["namespace", "position"]
  | .page => ["selectors", "declarations", "position"]
  | .supports => ["supports", "rules", "position"]

/-- The fields of a stylesheet's body, in their order. -/
def bodyNames : List String := ["source", "rules", "parsingErrors"]

/-- Where a record holds the nodes below it. -/
inductive Slot where
  | nowhere
  | field (name : String)
  /-- In the body of a stylesheet. -/
  | body
  deriving DecidableEq, Repr

/-- Where a kind of node holds the nodes below it. -/
def slot : Kind → Slot
  | .stylesheet => .body
  | .rule | .fontFace | .keyframe | .page => .field "declarations"
  | .document | .host | .media | .supports => .field "rules"
  | .keyframes => .field "keyframes"
  | .declaration | .comment | .charset | .customMedia | .atImport | .atNamespace => .nowhere

/-- The kind a tag stands for. -/
def ofTag? (nested : Bool) : Json → Option Kind
  | .string name => ofName? name
  | .number (.integer n) => if nested ∧ 0 ≤ n then all[n.toNat]? else none
  | _ => none

end Kind

/-- The node of a kind with the given fields and the given nodes below it. -/
def assemble? (kind : Kind) (field : String → Option Json) (children : List Node) :
    Option Node := do
  let position ← Json.optional Position.ofJson? (field "position")
  let text (name : String) : Option String := Json.required Json.string? (field name)
  let texts (name : String) : Option (List String) := Json.required Json.strings? (field name)
  let vendor : Option (Option String) := Json.optional Json.string? (field "vendor")
  match kind with
  | .stylesheet =>
    let body ← field "stylesheet"
    let inner ← body.fields? Kind.bodyNames
    let source ← Json.optional Json.string? (inner "source")
    let parsingErrors ← Json.defaulted Json.items? [] (inner "parsingErrors")
    return .block (.stylesheet source parsingErrors) children position
  | .rule => return .block (.rule (← texts "selectors")) children position
  | .declaration =>
    return .statement (.declaration (← text "property") (← text "value")) position
  | .comment => return .statement (.comment (← text "comment")) position
  | .charset => return .statement (.charset (← text "charset")) position
  | .customMedia => return .statement (.customMedia (← text "name") (← text "media")) position
  | .document => return .block (.document (← text "document") (← vendor)) children position
  | .fontFace => return .block .fontFace children position
  | .host => return .block .host children position
  | .atImport => return .statement (.atImport (← text "import")) position
  | .keyframes => return .block (.keyframes (← text "name") (← vendor)) children position
  | .keyframe => return .block (.keyframe (← texts "values")) children position
  | .media => return .block (.media (← text "media")) children position
  | .atNamespace => return .statement (.atNamespace (← text "namespace")) position
  | .page =>
    return .block (.page (← Json.defaulted Json.strings? [] (field "selectors"))) children position
  | .supports => return .block (.supports (← text "supports")) children position

/-! ### Trees -/

mutual

/-- Reads a node; below the root a number may tag it. -/
def nodeOfJson? (nested : Bool) : Json → Option Node
  | .object members => do
    let kind ← Kind.ofTag? nested (← members.lookup "type")
    let children ← match kind.slot with
      | .nowhere => some []
      | .field name => memberNodes name members
      | .body => memberBody members
    assemble? kind (fun name => members.lookup name) children
  | .array (tag :: items) => do
    let kind ← Kind.ofTag? nested tag
    if items.length ≤ kind.fieldNames.length then
      let children ← match kind.slot with
        | .nowhere => some []
        | .field name => itemNodes (kind.fieldNames.idxOf name) items
        | .body => itemBody items
      assemble? kind (fun name => items[kind.fieldNames.idxOf name]?) children
    else none
  | _ => none

/-- Reads the nodes that the member of a given name holds; there are none when it is missing. -/
def memberNodes (name : String) : List (String × Json) → Option (List Node)
  | [] => some []
  | (other, value) :: rest => if other = name then nodesOfJson? value else memberNodes name rest

/-- Reads the nodes at a place of a record; there are none when the record is shorter. -/
def itemNodes : Nat → List Json → Option (List Node)
  | _, [] => some []
  | 0, value :: _ => nodesOfJson? value
  | n + 1, _ :: rest => itemNodes n rest

/-- Reads the nodes of the body that the member `stylesheet` holds. -/
def memberBody : List (String × Json) → Option (List Node)
  | [] => none
  | (other, value) :: rest =>
    if other = "stylesheet" then bodyNodes value else memberBody rest

/-- Reads the nodes of the body that a record begins with. -/
def itemBody : List Json → Option (List Node)
  | [] => none
  | value :: _ => bodyNodes value

/-- Reads the nodes of a stylesheet's body. -/
def bodyNodes : Json → Option (List Node)
  | .object members => memberNodes "rules" members
  | .array items => itemNodes 1 items
  | _ => none

/-- Reads an array of nodes. -/
def nodesOfJson? : Json → Option (List Node)
  | .array items => listOfJson? items
  | _ => none

/-- Reads nodes one after another. -/
def listOfJson? : List Json → Option (List Node)
  | [] => some []
  | item :: rest => do
    let node ← nodeOfJson? true item
    let nodes ← listOfJson? rest
    return node :: nodes

end

/-- Reads a tree. -/
def Node.ofJson? (j : Json) : Option Node :=
  nodeOfJson? false j

end StylePrint.Sheet
