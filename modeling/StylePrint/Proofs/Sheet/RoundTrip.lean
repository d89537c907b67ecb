import StylePrint.Sheet.Canonical
import StylePrint.Sheet.Decode
import StylePrint.Proofs.Json.Injective
import StylePrint.Proofs.Json.Record
/-!
The canonical JSON of a tree, read back. Each field stands where its reader looks for it, optional
ones included, so every node is read as itself (`Node.ofJson?_toJson`), and no two trees share their
canonical JSON or its text (`Node.key_inj`).
-/

namespace StylePrint

namespace Sheet

/-- A member is found under its own name and no other. -/
theorem lookup_member? (name other : String) (value : Option Json) :
    (member? name value).lookup other = if other = name then value else none := by
  cases value with
  | none => simp [member?]
  | some j =>
      by_cases h : other = name
      · simp [member?, h]
      · have hne : (other == name) = false := beq_eq_false_iff_ne.mpr h
        simp [member?, List.lookup_cons, h, hne]

/-! ### Positions -/

theorem Location.ofJson?_object (line column : Json) :
    Location.ofJson? (.object [("line", line), ("column", column)])
      = line.word?.bind fun line => column.word?.bind fun column => some ⟨line, column⟩ := rfl

theorem Location.ofJson?_toJson (l : Location) : Location.ofJson? l.toJson = some l := by
  rw [Location.toJson, Location.ofJson?_object, Json.word?_word, Json.word?_word]
  rfl

theorem Position.ofJson?_object (start finish : Json) (source content : Option Json) :
    Position.ofJson? (.object ([("start", start), ("end", finish)] ++ member? "source" source
        ++ member? "content" content))
      = (Location.ofJson? start).bind fun start => (Location.ofJson? finish).bind fun finish =>
          (Json.optional Json.string? source).bind fun source =>
            (Json.optional Json.string? content).bind fun content =>
              some ⟨start, finish, source, content⟩ := by
  cases source <;> cases content <;> rfl

theorem Position.ofJson?_toJson (p : Position) : Position.ofJson? p.toJson = some p := by
  have text : ∀ value : Option String,
      Json.optional Json.string? (value.map Json.string) = some value :=
    Json.optional_map (fun _ => rfl) nofun
  rw [Position.toJson, Position.ofJson?_object, Location.ofJson?_toJson, Location.ofJson?_toJson,
    text, text]
  rfl

/-! ### Nodes -/

theorem optional_position (position : Option Position) :
    Json.optional Position.ofJson? (position.map Position.toJson) = some position :=
  Json.optional_map Position.ofJson?_toJson nofun position

/-- A statement is put together from its members. -/
theorem assemble?_statement {field : String → Option Json} {position : Option Position}
    (content : Statement)
    (hposition : Json.optional Position.ofJson? (field "position") = some position)
    (hfield : ∀ name, name ≠ "type" → name ≠ "position" →
      field name = content.members.lookup name) :
    assemble? content.kind field [] = some (.statement content position) := by
  cases content <;>
    simp [assemble?, hposition, hfield, Statement.kind, Statement.members, List.lookup_cons,
      Json.required, Json.string?]

/-- A block is put together from its members and its nodes. -/
theorem assemble?_block {field : String → Option Json} {position : Option Position} (head : Head)
    (nodes : List Node) (children : Json)
    (hposition : Json.optional Position.ofJson? (field "position") = some position)
    (hfield : ∀ name, name ≠ "type" → name ≠ "position" →
      field name = (head.members children).lookup name) :
    assemble? head.kind field nodes = some (.block head nodes position) := by
  have vendor : ∀ vendor : Option String,
      Json.optional Json.string? (vendor.map Json.string) = some vendor :=
    Json.optional_map (fun _ => rfl) nofun
  cases head with
  | stylesheet source parsingErrors =>
      cases parsingErrors <;>
        simp [assemble?, hposition, hfield, Head.kind, Head.members, List.lookup_cons,
          Kind.bodyNames, Json.fields?, List.lookup_append, lookup_member?, vendor, Json.defaulted,
          Json.items?]
  | _ =>
      simp [assemble?, hposition, hfield, Head.kind, Head.members, List.lookup_cons,
        List.lookup_append, lookup_member?, vendor, Json.required, Json.defaulted, Json.string?,
        texts]

/-- The nodes of a member are those of the value found under its name. -/
theorem memberNodes_eq (name : String) (members : List (String × Json)) :
    memberNodes name members = (members.lookup name).elim (some []) nodesOfJson? := by
  induction members with
  | nil => rfl
  | cons member rest ih =>
      obtain ⟨other, value⟩ := member
      by_cases h : other = name
      · subst h
        simp [memberNodes]
      · have hne : (name == other) = false := beq_eq_false_iff_ne.mpr (Ne.symm h)
        simp [memberNodes, h, List.lookup_cons, hne, ih]

theorem memberBody_eq (members : List (String × Json)) :
    memberBody members = (members.lookup "stylesheet").bind bodyNodes := by
  induction members with
  | nil => rfl
  | cons member rest ih =>
      obtain ⟨other, value⟩ := member
      by_cases h : other = "stylesheet"
      · subst h
        simp [memberBody]
      · have hne : ("stylesheet" == other) = false := beq_eq_false_iff_ne.mpr (Ne.symm h)
        simp [memberBody, h, List.lookup_cons, hne, ih]

/-- The members of a node's object: its tag, what its kind needs, and its position. -/
def membersOf (kind : Kind) (members : List (String × Json)) (position : Option Position) :
    List (String × Json) :=
  ("type", .string kind.name) :: members ++ positionMember position

theorem lookup_membersOf (kind : Kind) (members : List (String × Json))
    (position : Option Position) {name : String} (hname : name ≠ "type") :
    (membersOf kind members position).lookup name
      = (members.lookup name).or (if name = "position" then position.map Position.toJson
          else none) := by
  have hne : (name == "type") = false := beq_eq_false_iff_ne.mpr hname
  rw [membersOf, List.cons_append, List.lookup_cons, hne, List.lookup_append, positionMember,
    lookup_member?]

/-- The nodes that an object holds in a slot. -/
def nodesAt (members : List (String × Json)) : Kind.Slot → Option (List Node)
  | .nowhere => some []
  | .field name => memberNodes name members
  | .body => memberBody members

/-- An object is read as a node as the kind of its tag says. -/
theorem nodeOfJson?_object (nested : Bool) (members : List (String × Json)) :
    nodeOfJson? nested (.object members)
      = ((members.lookup "type").bind (Kind.ofTag? nested)).bind fun kind =>
        (nodesAt members kind.slot).bind
          (assemble? kind fun name => members.lookup name) := by
  rw [nodeOfJson?]
  cases members.lookup "type" with
  | none => rfl
  | some tag =>
      simp only [Option.bind_eq_bind, Option.bind_some]
      refine Option.bind_congr fun kind _ => ?_
      cases kind.slot <;> rfl

/-- A node's object is read as its kind says. -/
theorem nodeOfJson?_tagged (nested : Bool) (kind : Kind) (members : List (String × Json))
    (position : Option Position) :
    nodeOfJson? nested (tagged kind members position)
      = (nodesAt (membersOf kind members position) kind.slot).bind
        (assemble? kind fun name => (membersOf kind members position).lookup name) := by
  have htag : (membersOf kind members position).lookup "type" = some (.string kind.name) := by
    rw [membersOf, List.cons_append, List.lookup_cons, beq_self_eq_true]
  have hkind : Kind.ofTag? nested (.string kind.name) = some kind := Kind.ofName?_name kind
  show nodeOfJson? nested (.object (membersOf kind members position)) = _
  rw [nodeOfJson?_object, htag, Option.bind_some, hkind, Option.bind_some]

theorem statement_lookup_position (content : Statement) :
    content.members.lookup "position" = none := by
  cases content <;> rfl

theorem head_lookup_position (head : Head) (children : Json) :
    (head.members children).lookup "position" = none := by
  cases head <;>
    simp [Head.members, List.lookup_cons, List.lookup_append, lookup_member?]

/-- A block holds its nodes in the slot of its kind. -/
theorem nodesAt_head (head : Head) (position : Option Position) {items : List Json}
    {nodes : List Node} (h : listOfJson? items = some nodes) :
    nodesAt (membersOf head.kind (head.members (.array items)) position) head.kind.slot
      = some nodes := by
  have read : nodesOfJson? (.array items) = some nodes := h
  have field : ∀ name, name ≠ "type" → (head.members (.array items)).lookup name
      = some (.array items) →
      memberNodes name (membersOf head.kind (head.members (.array items)) position)
        = some nodes := by
    intro name htype hlookup
    rw [memberNodes_eq, lookup_membersOf _ _ _ htype, hlookup, Option.some_or, Option.elim_some,
      read]
  cases head with
  | stylesheet source parsingErrors =>
      show memberBody _ = _
      rw [memberBody_eq, lookup_membersOf _ _ _ (by decide), Head.members, List.lookup_cons,
        beq_self_eq_true, Option.some_or, Option.bind_some, bodyNodes, memberNodes_eq]
      cases source <;> simp [member?, List.lookup_cons, read]
  | document address vendor =>
      exact field "rules" (by decide) (by cases vendor <;> rfl)
  | keyframes name vendor =>
      exact field "keyframes" (by decide) (by cases vendor <;> rfl)
  | _ => exact field _ (by decide) rfl

mutual

/-- Canonical JSON is read as the node it was written for, at the root and below it. -/
theorem nodeOfJson?_toJson (nested : Bool) :
    ∀ node : Node, nodeOfJson? nested node.toJson = some node
  | .statement content position => by
      have hslot : content.kind.slot = .nowhere := by cases content <;> rfl
      rw [Node.toJson, nodeOfJson?_tagged, hslot, nodesAt, Option.bind_some]
      refine assemble?_statement content ?_ ?_
      · rw [lookup_membersOf _ _ _ (by decide), statement_lookup_position, if_pos rfl,
          Option.none_or, optional_position]
      · intro name htype hposition
        rw [lookup_membersOf _ _ _ htype, if_neg hposition, Option.or_none]
  | .block head children position => by
      rw [Node.toJson, nodeOfJson?_tagged,
        nodesAt_head head position (listOfJson?_toJsons children), Option.bind_some]
      refine assemble?_block head children (.array (Node.toJsons children)) ?_ ?_
      · rw [lookup_membersOf _ _ _ (by decide), head_lookup_position, if_pos rfl,
          Option.none_or, optional_position]
      · intro name htype hposition
        rw [lookup_membersOf _ _ _ htype, if_neg hposition, Option.or_none]

theorem listOfJson?_toJsons : ∀ nodes : List Node, listOfJson? (Node.toJsons nodes) = some nodes
  | [] => rfl
  | node :: rest => by
      rw [Node.toJsons, listOfJson?, nodeOfJson?_toJson true node, listOfJson?_toJsons rest]
      rfl

end

/-- **Canonical JSON is read as the tree it was written for.** -/
theorem Node.ofJson?_toJson (node : Node) : Node.ofJson? node.toJson = some node :=
  nodeOfJson?_toJson false node

/-- Trees with one canonical JSON are one tree. -/
theorem Node.toJson_inj {a b : Node} (h : a.toJson = b.toJson) : a = b := by
  have hread := Node.ofJson?_toJson a
  rw [h, Node.ofJson?_toJson] at hread
  exact (Option.some.inj hread).symm

/-- **Trees with one canonical text are one tree.** -/
theorem Node.key_inj {a b : Node} (h : a.key = b.key) : a = b :=
  Node.toJson_inj (Json.eq_of_text_eq h)

instance : DecidableEq Node := fun a b =>
  decidable_of_iff (a.key = b.key) ⟨Node.key_inj, congrArg Node.key⟩

end Sheet

end StylePrint
