import StylePrint.Proofs.Json.Respelling
import StylePrint.Proofs.Sheet.RoundTrip
/-!
The fields of a tree's records. Each record has a table of its fields (`Shape.fields?`): which of
them may be left out, and how what they hold is read. A record is read from these fields alone
(`Shape.read_congr`), and a fault in one of them is a fault of the record
(`Shape.read_eq_none`).
-/

namespace StylePrint.Sheet

open Json (Presence)

/-! ### Shapes -/

/-- How a value below a tree is read. -/
inductive Shape where
  /-- A value that holds nothing below it that is read on its own. -/
  | leaf
  | location
  | position
  /-- The body of a stylesheet. -/
  | body
  /-- An array of nodes. -/
  | nodes
  /-- A node, at the root or below it. -/
  | node (nested : Bool)
  deriving DecidableEq, Repr

/-- A field of a record. -/
structure Field where
  presence : Presence Json
  shape : Shape

namespace Field

/-- A field that is read as it stands. -/
abbrev plain (presence : Presence Json) : Field := ⟨presence, .leaf⟩

/-- A field with nodes, which may be missing when there are none. -/
abbrev children : Field := ⟨.defaulted (.array []), .nodes⟩

end Field

def locationFields : List (String × Field) :=
  [("line", .plain .required), ("column", .plain .required)]

def positionFields : List (String × Field) :=
  [("start", ⟨.required, .location⟩),
   ("end", ⟨.defaulted (Location.toJson ⟨0, 0⟩), .location⟩),
   ("source", .plain .optional), ("content", .plain .optional)]

/-- The fields of a stylesheet's body. A body without errors has no such field, and `null` does not
stand for it. -/
def bodyFields : List (String × Field) :=
  [("source", .plain .optional), ("rules", .children),
   ("parsingErrors", .plain (.defaulted (.array [])))]

/-- The fields of a kind of node, with its tag in front. -/
def Kind.fields (kind : Kind) : List (String × Field) :=
  let own : List (String × Field) :=
    match kind with
    | .stylesheet => [("stylesheet", ⟨.required, .body⟩)]
    | .rule => [("selectors", .plain .required), ("declarations", .children)]
    | .declaration => [("property", .plain .required), ("value", .plain .required)]
    | .comment => [("comment", .plain .required)]
    | .charset => [("charset", .plain .required)]
    | .customMedia => [("name", .plain .required), ("media", .plain .required)]
    | .document =>
      [("document", .plain .required), ("vendor", .plain .optional), ("rules", .children)]
    | .fontFace => [("declarations", .children)]
    | .host => [("rules", .children)]
    | .atImport => [("import", .plain .required)]
    | .keyframes =>
      [("name", .plain .required), ("vendor", .plain .optional), ("keyframes", .children)]
    | .keyframe => [("values", .plain .required), ("declarations", .children)]
    | .media => [("media", .plain .required), ("rules", .children)]
    | .atNamespace => [("namespace", .plain .required)]
    | .page => [("selectors", .plain (.defaulted (.array []))), ("declarations", .children)]
    | .supports => [("supports", .plain .required), ("rules", .children)]
  ("type", .plain .required) :: own ++ [("position", ⟨.optional, .position⟩)]

/-- The table names the fields as their reader does. -/
theorem Kind.names_fields (kind : Kind) :
    kind.fields.map Prod.fst = "type" :: kind.fieldNames := by
  cases kind <;> rfl

namespace Shape

/-- The fields of an object; a node's are those of the kind that its tag names. -/
def fields? (members : List (String × Json)) : Shape → Option (List (String × Field))
  | .leaf | .nodes => none
  | .location => some locationFields
  | .position => some positionFields
  | .body => some bodyFields
  | .node nested => ((members.lookup "type").bind (Kind.ofTag? nested)).map Kind.fields

theorem nodup_fields {members : List (String × Json)} {shape : Shape}
    {fields : List (String × Field)} (h : shape.fields? members = some fields) :
    (fields.map Prod.fst).Nodup := by
  cases shape with
  | leaf => cases h
  | nodes => cases h
  | node nested =>
      obtain ⟨kind, -, rfl⟩ := Option.map_eq_some_iff.mp h
      rw [Kind.names_fields]
      cases kind <;> decide
  | _ => cases h; decide

/-! ### Readings -/

/-- What a value is read as. -/
abbrev Value : Shape → Type
  | .leaf => Json
  | .location => Location
  | .position => Position
  | .body => Head × List Node
  | .nodes => List Node
  | .node _ => Node

end Shape

/-- Reads the body of a stylesheet. -/
def bodyOfJson? (j : Json) : Option (Head × List Node) := do
  let inner ← j.fields? Kind.bodyNames
  let source ← Json.optional Json.string? (inner "source")
  let parsingErrors ← Json.defaulted Json.items? [] (inner "parsingErrors")
  let nodes ← bodyNodes j
  return (.stylesheet source parsingErrors, nodes)

/-- Reads a value of a shape. -/
def Shape.read : (shape : Shape) → Json → Option shape.Value
  | .leaf => some
  | .location => Location.ofJson?
  | .position => Position.ofJson?
  | .body => bodyOfJson?
  | .nodes => nodesOfJson?
  | .node nested => nodeOfJson? nested

namespace Field

/-- Reads a field: a fault, nothing, or a value. -/
def read (field : Field) (value : Option Json) : Option (Option field.shape.Value) :=
  match field.presence with
  | .required => (Json.required field.shape.read value).map some
  | .optional => Json.optional field.shape.read value
  | .defaulted default => (field.shape.read (value.getD default)).map some

/-- A field is read as if it were written out. -/
theorem read_fill (field : Field) (value : Option Json) :
    field.read (field.presence.fill .null value) = field.read value := by
  obtain ⟨presence, shape⟩ := field
  cases presence with
  | required => rfl
  | optional => exact Json.optional_fill value
  | defaulted => rfl

/-- Two values that are not `null` make no difference when they are read alike. -/
theorem read_some_congr (field : Field) {j k : Json} (hj : j ≠ .null) (hk : k ≠ .null)
    (h : field.shape.read j = field.shape.read k) :
    field.read (some j) = field.read (some k) := by
  obtain ⟨presence, shape⟩ := field
  cases presence with
  | required => exact congrArg (Option.map some) h
  | optional =>
      exact (Json.optional_some hj).trans
        ((congrArg (Option.map some) h).trans (Json.optional_some hk).symm)
  | defaulted => exact congrArg (Option.map some) h

theorem read_some_eq_none (field : Field) {j : Json} (hj : j ≠ .null)
    (h : field.shape.read j = none) : field.read (some j) = none := by
  obtain ⟨presence, shape⟩ := field
  cases presence with
  | required => exact congrArg (Option.map some) h
  | optional => exact (Json.optional_some hj).trans (congrArg (Option.map some) h)
  | defaulted => exact congrArg (Option.map some) h

section

variable {α : Type} {v w : Option Json} {shape : Shape}

theorem required_congr (h : read ⟨.required, shape⟩ v = read ⟨.required, shape⟩ w) :
    Json.required shape.read v = Json.required shape.read w :=
  Option.map_injective (Option.some_injective _) h

theorem eq_of_read_plain (h : read (plain .required) v = read (plain .required) w) : v = w := by
  have hread (value : Option Json) : Json.required some value = value := by cases value <;> rfl
  exact (hread v).symm.trans ((required_congr h).trans (hread w))

theorem optional_plain_congr (read? : Json → Option α)
    (h : read (plain .optional) v = read (plain .optional) w) :
    Json.optional read? v = Json.optional read? w := by
  have hread (value : Option Json) :
      Json.optional read? value = (read (plain .optional) value).bind fun value =>
        Json.optional read? value := by
    cases value with
    | none => rfl
    | some j => cases j <;> rfl
  rw [hread v, hread w, h]

theorem defaulted_congr (shape : Shape) {default : Json} {a : shape.Value}
    (hdefault : shape.read default = some a)
    (h : read ⟨.defaulted default, shape⟩ v = read ⟨.defaulted default, shape⟩ w) :
    Json.defaulted shape.read a v = Json.defaulted shape.read a w := by
  rw [Json.defaulted_eq_getD hdefault, Json.defaulted_eq_getD hdefault]
  exact Option.map_injective (Option.some_injective _) h

theorem defaulted_plain_congr (read? : Json → Option α) (default : Json) {a : α}
    (hdefault : read? default = some a)
    (h : read (plain (.defaulted default)) v = read (plain (.defaulted default)) w) :
    Json.defaulted read? a v = Json.defaulted read? a w := by
  have hvalue : some (v.getD default) = some (w.getD default) :=
    Option.map_injective (Option.some_injective _) h
  rw [Json.defaulted_eq_getD hdefault, Json.defaulted_eq_getD hdefault, Option.some.inj hvalue]

theorem required_eq_none (h : read ⟨.required, shape⟩ v = none) :
    Json.required shape.read v = none :=
  Option.map_eq_none_iff.mp h

theorem defaulted_eq_none (shape : Shape) {default : Json} {a : shape.Value}
    (hdefault : shape.read default = some a) (h : read ⟨.defaulted default, shape⟩ v = none) :
    Json.defaulted shape.read a v = none := by
  rw [Json.defaulted_eq_getD hdefault]
  exact Option.map_eq_none_iff.mp h

/-- A field that is read as it stands is at fault only when it is required and missing. -/
theorem read_plain_eq_none {presence : Presence Json} (h : read (plain presence) v = none) :
    presence = .required ∧ v = none := by
  cases presence with
  | required =>
      cases v with
      | none => exact ⟨rfl, rfl⟩
      | some j => cases h
  | optional =>
      rcases v with _ | j
      · cases h
      · cases j <;> cases h
  | defaulted => cases h

end

end Field

/-! ### Locations and positions -/

/-- Whether two objects are read alike in each of some fields. -/
def ReadAlike (fields : List (String × Field)) (members others : List (String × Json)) : Prop :=
  ∀ name field, (name, field) ∈ fields →
    field.read (members.lookup name) = field.read (others.lookup name)

section

variable {members others : List (String × Json)}

theorem Location.ofJson?_congr (h : ReadAlike locationFields members others) :
    Location.ofJson? (.object members) = Location.ofJson? (.object others) := by
  have hline := Field.eq_of_read_plain (h "line" _ (by simp [locationFields]))
  have hcolumn := Field.eq_of_read_plain (h "column" _ (by simp [locationFields]))
  simp only [ofJson?, Json.fields?, Option.bind_eq_bind, Option.bind_some, hline, hcolumn]

theorem Location.ofJson?_eq_none {name : String} {field : Field}
    (hmem : (name, field) ∈ locationFields) (h : field.read (members.lookup name) = none) :
    Location.ofJson? (.object members) = none := by
  simp only [locationFields, List.mem_cons, List.not_mem_nil, or_false, Prod.mk.injEq] at hmem
  rcases hmem with ⟨rfl, rfl⟩ | ⟨rfl, rfl⟩
  · have hline := (Field.read_plain_eq_none h).2
    simp [ofJson?, Json.fields?, hline, Json.required]
  · have hcolumn := (Field.read_plain_eq_none h).2
    simp [ofJson?, Json.fields?, hcolumn, Json.required]

theorem Position.ofJson?_congr (h : ReadAlike positionFields members others) :
    Position.ofJson? (.object members) = Position.ofJson? (.object others) := by
  have hstart : Json.required Location.ofJson? (members.lookup "start")
      = Json.required Location.ofJson? (others.lookup "start") :=
    Field.required_congr (h "start" ⟨.required, .location⟩ (by simp [positionFields]))
  have hfinish : Json.defaulted Location.ofJson? ⟨0, 0⟩ (members.lookup "end")
      = Json.defaulted Location.ofJson? ⟨0, 0⟩ (others.lookup "end") :=
    Field.defaulted_congr .location (Location.ofJson?_toJson ⟨0, 0⟩)
      (h "end" _ (by simp [positionFields]))
  have hsource := Field.optional_plain_congr Json.string?
    (h "source" _ (by simp [positionFields]))
  have hcontent := Field.optional_plain_congr Json.string?
    (h "content" _ (by simp [positionFields]))
  simp only [ofJson?, Json.fields?, Option.bind_eq_bind, Option.bind_some, hstart, hfinish,
    hsource, hcontent]

theorem Position.ofJson?_eq_none {name : String} {field : Field}
    (hmem : (name, field) ∈ positionFields) (h : field.read (members.lookup name) = none) :
    Position.ofJson? (.object members) = none := by
  simp only [positionFields, List.mem_cons, List.not_mem_nil, or_false, Prod.mk.injEq] at hmem
  rcases hmem with ⟨rfl, rfl⟩ | ⟨rfl, rfl⟩ | ⟨rfl, rfl⟩ | ⟨rfl, rfl⟩
  · have hstart : Json.required Location.ofJson? (members.lookup "start") = none :=
      Field.required_eq_none h
    simp [ofJson?, Json.fields?, hstart]
  · have hfinish : Json.defaulted Location.ofJson? ⟨0, 0⟩ (members.lookup "end") = none :=
      Field.defaulted_eq_none .location (Location.ofJson?_toJson ⟨0, 0⟩) h
    simp [ofJson?, Json.fields?, hfinish]
  · cases (Field.read_plain_eq_none h).1
  · cases (Field.read_plain_eq_none h).1

/-! ### Bodies and nodes -/

theorem memberNodes_eq_defaulted (name : String) (members : List (String × Json)) :
    memberNodes name members = Json.defaulted Shape.nodes.read [] (members.lookup name) := by
  rw [memberNodes_eq]
  cases members.lookup name <;> rfl

theorem memberNodes_congr {name : String}
    (h : Field.children.read (members.lookup name) = Field.children.read (others.lookup name)) :
    memberNodes name members = memberNodes name others := by
  rw [memberNodes_eq_defaulted, memberNodes_eq_defaulted]
  exact Field.defaulted_congr .nodes rfl h

theorem memberNodes_eq_none {name : String}
    (h : Field.children.read (members.lookup name) = none) : memberNodes name members = none := by
  rw [memberNodes_eq_defaulted]
  exact Field.defaulted_eq_none .nodes rfl h

theorem bodyOfJson?_congr (h : ReadAlike bodyFields members others) :
    bodyOfJson? (.object members) = bodyOfJson? (.object others) := by
  have hsource := Field.optional_plain_congr Json.string? (h "source" _ (by simp [bodyFields]))
  have herrors : Json.defaulted Json.items? [] (members.lookup "parsingErrors")
      = Json.defaulted Json.items? [] (others.lookup "parsingErrors") :=
    Field.defaulted_plain_congr Json.items? (.array []) rfl
      (h "parsingErrors" _ (by simp [bodyFields]))
  have hnodes : bodyNodes (.object members) = bodyNodes (.object others) :=
    memberNodes_congr (h "rules" _ (by simp [bodyFields]))
  simp only [bodyOfJson?, Json.fields?, Option.bind_eq_bind, Option.bind_some, hsource, herrors,
    hnodes]

theorem bodyOfJson?_eq_none {name : String} {field : Field}
    (hmem : (name, field) ∈ bodyFields) (h : field.read (members.lookup name) = none) :
    bodyOfJson? (.object members) = none := by
  simp only [bodyFields, List.mem_cons, List.not_mem_nil, or_false, Prod.mk.injEq] at hmem
  rcases hmem with ⟨rfl, rfl⟩ | ⟨rfl, rfl⟩ | ⟨rfl, rfl⟩
  · cases (Field.read_plain_eq_none h).1
  · have hnodes : bodyNodes (.object members) = none := memberNodes_eq_none h
    simp [bodyOfJson?, Json.fields?, hnodes]
  · cases (Field.read_plain_eq_none h).1

/-- A stylesheet is read from its body and its position. -/
theorem assemble?_stylesheet (members : List (String × Json)) :
    (nodesAt members .body).bind (assemble? .stylesheet fun name => members.lookup name)
      = (Json.required bodyOfJson? (members.lookup "stylesheet")).bind fun (head, nodes) =>
        (Json.optional Position.ofJson? (members.lookup "position")).map fun position =>
          .block head nodes position := by
  rw [nodesAt, memberBody_eq]
  cases hbody : members.lookup "stylesheet" with
  | none => rfl
  | some body =>
      simp only [Option.bind_some, Json.required, bodyOfJson?, Option.bind_eq_bind]
      cases bodyNodes body <;> cases hinner : body.fields? Kind.bodyNames <;>
        cases hposition : Json.optional Position.ofJson? (members.lookup "position") <;>
        simp [assemble?, hbody, hinner, hposition, Option.bind_assoc]

/-- A field of a node is read as it stands, or holds the position, the nodes or the body. -/
theorem Kind.forall_mem_fields (kind : Kind) :
    ∀ entry ∈ kind.fields, (∃ presence, entry.2 = .plain presence) ∨
      (entry = ("position", ⟨.optional, .position⟩)) ∨
      (kind.slot = .field entry.1 ∧ entry.2 = .children) ∨
      (kind = .stylesheet ∧ entry = ("stylesheet", ⟨.required, .body⟩)) := by
  cases kind <;> simp [Kind.fields, Kind.slot]

theorem Kind.children_mem_fields {kind : Kind} {name : String} (h : kind.slot = .field name) :
    (name, Field.children) ∈ kind.fields := by
  cases kind <;> cases h <;> simp [Kind.fields]

theorem assemble?_congr {kind : Kind} (h : ReadAlike kind.fields members others)
    (hkind : kind ≠ .stylesheet) (nodes : List Node) :
    assemble? kind (fun name => members.lookup name) nodes
      = assemble? kind (fun name => others.lookup name) nodes := by
  have position : Json.optional Position.ofJson? (members.lookup "position")
      = Json.optional Position.ofJson? (others.lookup "position") :=
    h "position" ⟨.optional, .position⟩ (by simp [Kind.fields])
  have required (name : String) (hname : (name, Field.plain .required) ∈ kind.fields) :
      members.lookup name = others.lookup name :=
    Field.eq_of_read_plain (h name _ hname)
  have vendor (hname : ("vendor", Field.plain .optional) ∈ kind.fields) :
      Json.optional Json.string? (members.lookup "vendor")
        = Json.optional Json.string? (others.lookup "vendor") :=
    Field.optional_plain_congr _ (h "vendor" _ hname)
  cases kind with
  | stylesheet => exact absurd rfl hkind
  | rule => simp only [assemble?, position, required "selectors" (by simp [Kind.fields])]
  | declaration =>
      simp only [assemble?, position, required "property" (by simp [Kind.fields]),
        required "value" (by simp [Kind.fields])]
  | comment => simp only [assemble?, position, required "comment" (by simp [Kind.fields])]
  | charset => simp only [assemble?, position, required "charset" (by simp [Kind.fields])]
  | customMedia =>
      simp only [assemble?, position, required "name" (by simp [Kind.fields]),
        required "media" (by simp [Kind.fields])]
  | document =>
      simp only [assemble?, position, required "document" (by simp [Kind.fields]),
        vendor (by simp [Kind.fields])]
  | fontFace | host => simp only [assemble?, position]
  | atImport => simp only [assemble?, position, required "import" (by simp [Kind.fields])]
  | keyframes =>
      simp only [assemble?, position, required "name" (by simp [Kind.fields]),
        vendor (by simp [Kind.fields])]
  | keyframe => simp only [assemble?, position, required "values" (by simp [Kind.fields])]
  | media => simp only [assemble?, position, required "media" (by simp [Kind.fields])]
  | atNamespace => simp only [assemble?, position, required "namespace" (by simp [Kind.fields])]
  | page =>
      have hselectors : Json.defaulted Json.strings? [] (members.lookup "selectors")
          = Json.defaulted Json.strings? [] (others.lookup "selectors") :=
        Field.defaulted_plain_congr _ (.array []) rfl (h "selectors" _ (by simp [Kind.fields]))
      simp only [assemble?, position, hselectors]
  | supports => simp only [assemble?, position, required "supports" (by simp [Kind.fields])]

/-- A node without one of its required fields is not put together. -/
theorem assemble?_eq_none {kind : Kind} {field : String → Option Json} {name : String}
    (hname : name ≠ "type") (hmem : (name, Field.plain .required) ∈ kind.fields)
    (h : field name = none) (nodes : List Node) : assemble? kind field nodes = none := by
  have hmissing {α : Type} (read : Json → Option α) : Json.required read (field name) = none := by
    rw [h]
    rfl
  cases kind <;> simp [Kind.fields, hname] at hmem
  all_goals first | subst hmem | obtain rfl | rfl := hmem
  all_goals simp [assemble?, hmissing]

theorem nodeOfJson?_congr {nested : Bool} {kind : Kind}
    (hkind : (members.lookup "type").bind (Kind.ofTag? nested) = some kind)
    (h : ReadAlike kind.fields members others) :
    nodeOfJson? nested (.object members) = nodeOfJson? nested (.object others) := by
  have htype : members.lookup "type" = others.lookup "type" :=
    Field.eq_of_read_plain (h "type" _ (by simp [Kind.fields]))
  rw [nodeOfJson?_object, nodeOfJson?_object, ← htype, hkind, Option.bind_some, Option.bind_some]
  by_cases hsheet : kind = .stylesheet
  · subst hsheet
    have hbody : Json.required bodyOfJson? (members.lookup "stylesheet")
        = Json.required bodyOfJson? (others.lookup "stylesheet") :=
      Field.required_congr (h "stylesheet" ⟨.required, .body⟩ (by simp [Kind.fields]))
    have hposition : Json.optional Position.ofJson? (members.lookup "position")
        = Json.optional Position.ofJson? (others.lookup "position") :=
      h "position" ⟨.optional, .position⟩ (by simp [Kind.fields])
    rw [Kind.slot, assemble?_stylesheet, assemble?_stylesheet, hbody, hposition]
  · have hnodes : nodesAt members kind.slot = nodesAt others kind.slot := by
      cases hslot : kind.slot with
      | nowhere => rfl
      | field name => exact memberNodes_congr (h name _ (Kind.children_mem_fields hslot))
      | body => exact absurd (by cases kind <;> first | rfl | cases hslot) hsheet
    rw [hnodes]
    exact Option.bind_congr fun nodes _ => assemble?_congr h hsheet nodes

theorem nodeOfJson?_eq_none {nested : Bool} {kind : Kind} {name : String} {field : Field}
    (hkind : (members.lookup "type").bind (Kind.ofTag? nested) = some kind)
    (hmem : (name, field) ∈ kind.fields) (h : field.read (members.lookup name) = none) :
    nodeOfJson? nested (.object members) = none := by
  rw [nodeOfJson?_object, hkind, Option.bind_some]
  rcases kind.forall_mem_fields _ hmem with ⟨presence, hfield⟩ | hposition | hnodes | hbody
  · obtain rfl : field = .plain presence := hfield
    obtain ⟨rfl, hmissing⟩ := Field.read_plain_eq_none h
    have hname : name ≠ "type" := by
      rintro rfl
      rw [hmissing] at hkind
      cases hkind
    exact Option.bind_eq_none_iff.mpr fun nodes _ => assemble?_eq_none hname hmem hmissing nodes
  · obtain ⟨rfl, rfl⟩ := Prod.mk.inj hposition
    have hread : Json.optional Position.ofJson? (members.lookup "position") = none := h
    refine Option.bind_eq_none_iff.mpr fun nodes _ => ?_
    rw [assemble?, hread]
    rfl
  · obtain ⟨hslot, rfl⟩ := hnodes
    rw [hslot, nodesAt, memberNodes_eq_none h]
    rfl
  · obtain ⟨rfl, hentry⟩ := hbody
    obtain ⟨rfl, rfl⟩ := Prod.mk.inj hentry
    have hread : Json.required bodyOfJson? (members.lookup "stylesheet") = none :=
      Field.required_eq_none h
    rw [Kind.slot, assemble?_stylesheet, hread]
    rfl

/-! ### Records -/

/-- **A record is read from its fields alone.** -/
theorem Shape.read_congr {shape : Shape} {fields : List (String × Field)}
    (hfields : shape.fields? members = some fields) (h : ReadAlike fields members others) :
    shape.read (.object members) = shape.read (.object others) := by
  cases shape with
  | leaf => cases hfields
  | nodes => cases hfields
  | location => cases hfields; exact Location.ofJson?_congr h
  | position => cases hfields; exact Position.ofJson?_congr h
  | body => cases hfields; exact bodyOfJson?_congr h
  | node nested =>
      obtain ⟨kind, hkind, rfl⟩ := Option.map_eq_some_iff.mp hfields
      exact nodeOfJson?_congr hkind h

/-- **A fault in a field is one of the record.** -/
theorem Shape.read_eq_none {shape : Shape} {fields : List (String × Field)} {name : String}
    {field : Field} (hfields : shape.fields? members = some fields)
    (hmem : (name, field) ∈ fields) (h : field.read (members.lookup name) = none) :
    shape.read (.object members) = none := by
  cases shape with
  | leaf => cases hfields
  | nodes => cases hfields
  | location => cases hfields; exact Location.ofJson?_eq_none hmem h
  | position => cases hfields; exact Position.ofJson?_eq_none hmem h
  | body => cases hfields; exact bodyOfJson?_eq_none hmem h
  | node nested =>
      obtain ⟨kind, hkind, rfl⟩ := Option.map_eq_some_iff.mp hfields
      exact nodeOfJson?_eq_none hkind hmem h

end

end StylePrint.Sheet
