import StylePrint.Session
import StylePrint.Proofs.Sheet.Fields
/-!
The spellings of a tree. Any object of a tree's JSON, however deep, may be spelled in another way
(`Inside`, `Respells`). A value that is spelled from the canonical JSON of a tree is read as this
tree, and printed as it; without one of its required fields, wherever it stood, it is no tree
(`Node.spelled_trees_are_read`).
-/

namespace StylePrint

namespace Sheet

open Json (Presence Respelled)

/-! ### Changes inside a value -/

/-- A change of one object inside a value that is read in some shape: of the value itself, inside a
field, or inside an item of an array of nodes. -/
inductive Inside (change : Shape → List (String × Json) → List (String × Json) → Prop) :
    Shape → Json → Json → Prop where
  | here {shape : Shape} {members others : List (String × Json)}
      (h : change shape members others) : Inside change shape (.object members) (.object others)
  | field {shape : Shape} {fields : List (String × Field)} {field : Field} {name : String}
      (before after : List (String × Json)) {j k : Json}
      (hfields : shape.fields? (before ++ (name, j) :: after) = some fields)
      (hfield : (name, field) ∈ fields) (hname : name ∉ before.map Prod.fst)
      (h : Inside change field.shape j k) :
      Inside change shape (.object (before ++ (name, j) :: after))
        (.object (before ++ (name, k) :: after))
  | item (before after : List Json) {j k : Json} (h : Inside change (.node true) j k) :
      Inside change .nodes (.array (before ++ j :: after)) (.array (before ++ k :: after))

/-- Whether one object spells another one of the same shape. -/
def Respells (shape : Shape) (members others : List (String × Json)) : Prop :=
  ∃ fields, shape.fields? members = some fields ∧
    Respelled .null (fun name => (fields.lookup name).map Field.presence) members others

/-- Whether one object is another one without one of the fields that its shape requires. -/
def LosesRequired (shape : Shape) (members others : List (String × Json)) : Prop :=
  ∃ fields name below before value after, shape.fields? members = some fields ∧
    (name, ⟨.required, below⟩) ∈ fields ∧ members = before ++ (name, value) :: after ∧
    others = before ++ after ∧ name ∉ others.map Prod.fst

section

variable {change : Shape → List (String × Json) → List (String × Json) → Prop} {shape : Shape}
  {j k : Json}

/-- Only arrays and objects change. -/
theorem Inside.ne_null (h : Inside change shape j k) : j ≠ .null ∧ k ≠ .null := by
  cases h <;> exact ⟨nofun, nofun⟩

/-! ### Items and fields -/

theorem listOfJson?_congr (h : nodeOfJson? true j = nodeOfJson? true k) (before after : List Json) :
    listOfJson? (before ++ j :: after) = listOfJson? (before ++ k :: after) := by
  induction before with
  | nil => rw [List.nil_append, List.nil_append, listOfJson?, listOfJson?, h]
  | cons item rest ih => rw [List.cons_append, List.cons_append, listOfJson?, listOfJson?, ih]

theorem listOfJson?_eq_none (h : nodeOfJson? true j = none) (before after : List Json) :
    listOfJson? (before ++ j :: after) = none := by
  induction before with
  | nil => rw [List.nil_append, listOfJson?, h]; rfl
  | cons item rest ih => rw [List.cons_append, listOfJson?, ih]; cases nodeOfJson? true item <;> rfl

variable {fields : List (String × Field)} {field : Field} {name : String}
  {before after : List (String × Json)}

/-- Objects that differ in one field are read alike when this field is. -/
theorem readAlike_of_field (hfields : shape.fields? (before ++ (name, j) :: after) = some fields)
    (hfield : (name, field) ∈ fields) (hname : name ∉ before.map Prod.fst)
    (h : field.read (some j) = field.read (some k)) :
    ReadAlike fields (before ++ (name, j) :: after) (before ++ (name, k) :: after) := by
  intro other entry hentry
  by_cases hother : other = name
  · subst hother
    have hsame := List.inj_on_of_nodup_map (Shape.nodup_fields hfields) hentry hfield rfl
    obtain rfl : entry = field := (Prod.mk.inj hsame).2
    rw [List.lookup_append_cons_self hname, List.lookup_append_cons_self hname, h]
  · rw [List.lookup_append_cons_of_ne hother, List.lookup_append_cons_of_ne hother]

/-- What a field holds does not tell which fields there are, unless it is the tag. -/
theorem fields?_of_field (hfields : shape.fields? (before ++ (name, j) :: after) = some fields)
    (hfield : (name, field) ∈ fields) (hleaf : field.shape ≠ .leaf) :
    shape.fields? (before ++ (name, k) :: after) = some fields := by
  cases shape with
  | node nested =>
      have hname : "type" ≠ name := by
        rintro rfl
        have hnodup := Shape.nodup_fields hfields
        obtain ⟨kind, -, rfl⟩ := Option.map_eq_some_iff.mp hfields
        have htag : ("type", Field.plain .required) ∈ kind.fields := by simp [Kind.fields]
        obtain rfl : field = .plain .required :=
          (Prod.mk.inj (List.inj_on_of_nodup_map hnodup hfield htag rfl)).2
        exact hleaf rfl
      rw [Shape.fields?, List.lookup_append_cons_of_ne hname] at hfields ⊢
      exact hfields
  | _ => exact hfields

/-! ### What a change preserves -/

/-- **Changes that leave the reading of an object as it is leave that of every value around it.** -/
theorem Inside.read_eq
    (hchange : ∀ shape members others, change shape members others →
      shape.read (.object members) = shape.read (.object others))
    (h : Inside change shape j k) : shape.read j = shape.read k := by
  induction h with
  | here h => exact hchange _ _ _ h
  | field before after hfields hfield hname h ih =>
      obtain ⟨hj, hk⟩ := h.ne_null
      exact Shape.read_congr hfields
        (readAlike_of_field hfields hfield hname (Field.read_some_congr _ hj hk ih))
  | item before after h ih => exact listOfJson?_congr ih before after

/-- **Changes that make an object unreadable do so to every value around it.** -/
theorem Inside.read_eq_none
    (hchange : ∀ shape members others, change shape members others →
      shape.read (.object others) = none)
    (h : Inside change shape j k) : shape.read k = none := by
  induction h with
  | here h => exact hchange _ _ _ h
  | @field shape fields field name before after j k hfields hfield hname h ih =>
      have hleaf : field.shape ≠ .leaf := by
        intro hleaf
        rw [hleaf] at ih
        cases ih
      refine Shape.read_eq_none (fields?_of_field hfields hfield hleaf) hfield ?_
      rw [List.lookup_append_cons_self hname]
      exact Field.read_some_eq_none field h.ne_null.2 ih
  | item before after h ih => exact listOfJson?_eq_none ih before after

end

/-! ### Respelled and incomplete objects -/

section

variable {shape : Shape} {members others : List (String × Json)}

theorem Respells.read_eq (h : Respells shape members others) :
    shape.read (.object members) = shape.read (.object others) := by
  obtain ⟨fields, hfields, hrespelled⟩ := h
  refine Shape.read_congr hfields fun name field hfield => ?_
  have hlookup := (List.lookup_eq_some_iff_mem (Shape.nodup_fields hfields)).mpr hfield
  have hpresence : (fields.lookup name).map Field.presence = some field.presence := by
    rw [hlookup]
    rfl
  rw [← Field.read_fill, ← hrespelled.fill_lookup hpresence, Field.read_fill]

theorem LosesRequired.read_eq_none (h : LosesRequired shape members others) :
    shape.read (.object others) = none := by
  obtain ⟨fields, name, below, before, value, after, hfields, hfield, rfl, rfl, hname⟩ := h
  have hmissing := List.lookup_eq_none_iff_not_mem.mpr hname
  have hread : Field.read ⟨.required, below⟩ ((before ++ after).lookup name) = none := by
    rw [hmissing]
    rfl
  cases shape with
  | node nested =>
      by_cases htype : "type" = name
      · subst htype
        show nodeOfJson? nested (.object (before ++ after)) = none
        rw [nodeOfJson?_object, hmissing]
        rfl
      · rw [Shape.fields?, List.lookup_append_cons_of_ne htype] at hfields
        exact Shape.read_eq_none hfields hfield hread
  | _ => exact Shape.read_eq_none hfields hfield hread

end

/-! ### Trees -/

/-- Whether one value is spelled from another one, which is read as a tree, by changes of objects
anywhere inside. -/
def Spells : Json → Json → Prop :=
  Relation.ReflTransGen (Inside Respells (.node false))

theorem Spells.ofJson?_eq {j k : Json} (h : Spells j k) : Node.ofJson? j = Node.ofJson? k := by
  induction h with
  | refl => rfl
  | tail _ hstep ih => exact ih.trans (hstep.read_eq fun _ _ _ => Respells.read_eq)

theorem Spells.ne_null {j k : Json} (h : Spells j k) (hj : j ≠ .null) : k ≠ .null := by
  induction h with
  | refl => exact hj
  | tail _ hstep _ => exact hstep.ne_null.2

end Sheet

/-! ### Printing a tree that is given as JSON -/

section

open Sheet

variable {j : Json}

theorem stringifyJson_of_tree {node : Node} (h : Node.ofJson? j = some node) (options : Options) :
    stringifyJson options j = stringify options (some node) := by
  cases j with
  | null => cases h
  | _ => simp only [stringifyJson, h]

theorem stringifyJson_of_no_tree (h : Node.ofJson? j = none) (hj : j ≠ .null)
    (options : Options) : stringifyJson options j = pure (.error .malformedTree) := by
  cases j with
  | null => exact absurd rfl hj
  | _ => simp only [stringifyJson, h]

end

namespace Sheet

/-- **The spellings of a tree are read as the tree, and none of its required fields may be
missing.** A value that is spelled from the canonical JSON of a tree, by adding members that no
record knows, writing `null` for optional fields that were left out, leaving out fields that hold
their default, or in another order of members, at any depth, is read as this tree, so it has the
same key and is printed alike. When one required field is taken from any object of such a value,
then the value is no tree, whatever else is spelled in another way. -/
theorem Node.spelled_trees_are_read (node : Node) :
    ∀ j, Spells node.toJson j →
      (ofJson? j = some node ∧ (ofJson? j).map key = some node.key ∧
        ∀ options, stringifyJson options j = stringifyJson options node.toJson) ∧
      ∀ k, Inside LosesRequired (.node false) j k → ∀ l, Spells k l →
        ofJson? l = none ∧
          ∀ options, stringifyJson options l = pure (.error .malformedTree) := by
  intro j hj
  have hread : ofJson? j = some node := hj.ofJson?_eq.symm.trans (ofJson?_toJson node)
  refine ⟨⟨hread, ?_, ?_⟩, ?_⟩
  · rw [hread]
    rfl
  · intro options
    rw [stringifyJson_of_tree hread, stringifyJson_of_tree (ofJson?_toJson node)]
  · intro k hk l hl
    have hlost : ofJson? k = none := hk.read_eq_none fun _ _ _ => LosesRequired.read_eq_none
    have hnone : ofJson? l = none := hl.ofJson?_eq.symm.trans hlost
    exact ⟨hnone, stringifyJson_of_no_tree hnone (hl.ne_null hk.ne_null.2)⟩

/-- A page without selectors, in a stylesheet: its selectors and the end of its position may be left
out and members added, but its position needs a start. -/
theorem Node.spelled_trees_are_read_of_page :
    let location (n : Nat) : Json := .object [("line", .nat n), ("column", .nat n)]
    let page (own position : List (String × Json)) : Json :=
      .object ([("type", .string "page")] ++ own
        ++ [("declarations", .array []), ("position", .object position)])
    let sheet (page : Json) : Json :=
      .object [("type", .string "stylesheet"), ("stylesheet", .object [("rules", .array [page])])]
    let node : Node := .block (.stylesheet none [])
      [.block (.page []) [] (some ⟨⟨1, 1⟩, ⟨0, 0⟩, none, none⟩)] none
    let spelled : Json := sheet (page [] [("start", location 1), ("file", .array [.null])])
    let broken : Json := sheet (page [] [("file", .array [.null])])
    (Spells node.toJson spelled ∧ Inside LosesRequired (.node false) spelled broken) ∧
      ofJson? spelled = some node ∧ ofJson? broken = none := by
  intro location page sheet node spelled broken
  have hbody : ("stylesheet", ⟨.required, .body⟩) ∈ Kind.stylesheet.fields := by
    simp [Kind.fields]
  have hrules : ("rules", .children) ∈ bodyFields := by simp [bodyFields]
  have hposition : ("position", ⟨.optional, .position⟩) ∈ Kind.page.fields := by
    simp [Kind.fields]
  have inside {change : Shape → List (String × Json) → List (String × Json) → Prop} {j k : Json}
      (h : Inside change (.node true) j k) : Inside change (.node false) (sheet j) (sheet k) :=
    .field [("type", Json.string "stylesheet")] [] rfl hbody (by decide)
      (.field [] [] rfl hrules (by decide) (.item [] [] h))
  have placed {change : Shape → List (String × Json) → List (String × Json) → Prop}
      {position other : List (String × Json)} (h : change .position position other) :
      Inside change (.node false) (sheet (page [] position)) (sheet (page [] other)) :=
    inside (.field [("type", Json.string "page"), ("declarations", .array [])] [] rfl hposition
      (by decide) (.here h))
  have hselectors : Inside Respells (.node false) node.toJson
      (sheet (page [] [("start", location 1), ("end", location 0)])) :=
    inside (.here ⟨_, rfl, .dropped [("type", Json.string "page")] _ rfl (by decide)⟩)
  have hend : Inside Respells (.node false)
      (sheet (page [] [("start", location 1), ("end", location 0)]))
      (sheet (page [] [("start", location 1)])) :=
    placed ⟨_, rfl, .dropped [("start", location 1)] [] rfl (by decide)⟩
  have hfile : Inside Respells (.node false) (sheet (page [] [("start", location 1)])) spelled :=
    placed ⟨_, rfl, .added [("start", location 1)] [] _ rfl (by decide)⟩
  have hspelled : Spells node.toJson spelled :=
    ((Relation.ReflTransGen.single hselectors).tail hend).tail hfile
  have hstart : ("start", ⟨.required, .location⟩) ∈ positionFields := by simp [positionFields]
  have hbroken : Inside LosesRequired (.node false) spelled broken :=
    placed ⟨_, "start", _, [], _, _, rfl, hstart, rfl, rfl, by decide⟩
  obtain ⟨⟨hread, -⟩, hnone⟩ := spelled_trees_are_read node spelled hspelled
  exact ⟨⟨hspelled, hbroken⟩, hread, (hnone broken hbroken broken .refl).1⟩

end Sheet

end StylePrint
