import StylePrint.Proofs.Sheet.Settled
/-!
What the canonical text of a tree is good for. It tells the tree; and as long as the errors that the
tree carries are values as a reader of JSON gives them, without floating-point numbers, it can be
read as the tree again, unless the tree is so deep that the reader of JSON refuses the text
(`Node.key_identifies`, `Node.deep_key_refused`).
-/

namespace StylePrint.Sheet

open Json

/-! ### The errors of a tree -/

/-- The errors that a head carries. -/
def Head.errors : Head → List Json
  | .stylesheet _ parsingErrors => parsingErrors
  | _ => []

mutual

/-- The errors that the stylesheets of a tree carry. -/
def Node.errors : Node → List Json
  | .statement _ _ => []
  | .block head children _ => head.errors ++ Node.errorsOfAll children

/-- The errors that the stylesheets of trees carry. -/
def Node.errorsOfAll : List Node → List Json
  | [] => []
  | node :: rest => node.errors ++ Node.errorsOfAll rest

end

/-- Whether the errors that a tree carries are values as a reader of JSON gives them, without
floating-point numbers: their numbers are integers of at most 64 bits, and the members of their
objects are in ascending order of name, each name once. -/
def Node.Plain (node : Node) : Prop :=
  ∀ error ∈ node.errors, error.Exact ∧ error.settled = error

/-! ### Trees whose errors are in order -/

mutual

/-- A tree whose errors have their members in order is in order. -/
theorem Node.settled_eq_self : ∀ node : Node,
    (∀ error ∈ node.errors, error.settled = error) → node.settled = node
  | .statement _ _, _ => rfl
  | .block head children position, h => by
      obtain ⟨hhead, hchildren⟩ := List.forall_mem_append.mp h
      have hsettled : head.settled = head := by
        cases head with
        | stylesheet source errors =>
            exact congrArg (Head.stylesheet source) (settledItems_eq_self hhead)
        | _ => rfl
      rw [Node.settled, hsettled, Node.settledAll_eq_self children hchildren]

theorem Node.settledAll_eq_self : ∀ nodes : List Node,
    (∀ error ∈ Node.errorsOfAll nodes, error.settled = error) → Node.settledAll nodes = nodes
  | [], _ => rfl
  | node :: rest, h => by
      obtain ⟨hnode, hrest⟩ := List.forall_mem_append.mp h
      rw [Node.settledAll, Node.settled_eq_self node hnode, Node.settledAll_eq_self rest hrest]

end

/-! ### Canonical JSON is exact -/

theorem exactMembers_member? {α : Type} {write : α → Json} (h : ∀ a, (write a).Exact)
    (name : String) (value : Option α) : ExactMembers (member? name (value.map write)) := by
  cases value with
  | none => trivial
  | some a => exact ⟨h a, trivial⟩

theorem exact_location (l : Location) : l.toJson.Exact :=
  ⟨by simp, exact_word l.line, exact_word l.column, trivial⟩

theorem exact_texts (items : List String) : (texts items).Exact :=
  exact_array_map exact_string items

theorem exact_position (p : Position) : p.toJson.Exact := by
  constructor
  · cases p.source <;> cases p.content <;> simp [member?]
  · refine exactMembers_append (exactMembers_append ?_ ?_) ?_
    · exact ⟨exact_location p.start, exact_location p.finish, trivial⟩
    · exact exactMembers_member? exact_string "source" p.source
    · exact exactMembers_member? exact_string "content" p.content

/-- The object of a node is exact when its members are, none of which is a tag or position. -/
theorem exact_tagged (kind : Kind) {members : List (String × Json)} (position : Option Position)
    (hnames : (("type" :: members.map Prod.fst) ++ ["position"]).Nodup)
    (hmembers : ExactMembers members) : (tagged kind members position).Exact := by
  constructor
  · cases position with
    | none => simpa [positionMember, member?] using hnames.sublist (List.sublist_append_left _ _)
    | some position => simpa [positionMember, member?] using hnames
  · have hposition := exactMembers_member? exact_position "position" position
    exact ⟨trivial, exactMembers_append hmembers hposition⟩

theorem nodup_statement (content : Statement) :
    (("type" :: content.members.map Prod.fst) ++ ["position"]).Nodup := by
  cases content <;> simp [Statement.members]

theorem nodup_head (head : Head) (children : Json) :
    (("type" :: (head.members children).map Prod.fst) ++ ["position"]).Nodup := by
  cases head with
  | document address vendor | keyframes name vendor =>
      cases vendor <;> simp [Head.members, member?]
  | _ => simp [Head.members]

theorem exactMembers_statement (content : Statement) : ExactMembers content.members := by
  cases content <;> simp [Statement.members, ExactMembers, Json.Exact]

theorem exactMembers_head {head : Head} {children : Json}
    (hhead : ∀ error ∈ head.errors, error.Exact) (hchildren : children.Exact) :
    ExactMembers (head.members children) := by
  cases head with
  | stylesheet source errors =>
      refine ⟨⟨?_, ?_⟩, trivial⟩
      · cases source <;> cases errors <;> simp [member?]
      · refine exactMembers_append (exactMembers_append ?_ ⟨hchildren, trivial⟩) ?_
        · exact exactMembers_member? exact_string "source" source
        · cases errors with
          | nil => trivial
          | cons error rest => exact ⟨exactItems_of_forall hhead, trivial⟩
  | document address vendor =>
      exact ⟨trivial, exactMembers_append (exactMembers_member? exact_string "vendor" vendor)
        ⟨hchildren, trivial⟩⟩
  | keyframes name vendor =>
      exact ⟨trivial, exactMembers_append (exactMembers_member? exact_string "vendor" vendor)
        ⟨hchildren, trivial⟩⟩
  | rule selectors | keyframe selectors | page selectors =>
      exact ⟨exact_texts selectors, hchildren, trivial⟩
  | media query | supports query => exact ⟨trivial, hchildren, trivial⟩
  | fontFace | host => exact ⟨hchildren, trivial⟩

mutual

/-- The canonical JSON of a tree is exact when its errors are. -/
theorem Node.exact_toJson : ∀ node : Node,
    (∀ error ∈ node.errors, error.Exact) → node.toJson.Exact
  | .statement content position, _ =>
      exact_tagged _ position (nodup_statement content) (exactMembers_statement content)
  | .block head children position, h => by
      obtain ⟨hhead, hchildren⟩ := List.forall_mem_append.mp h
      exact exact_tagged _ position (nodup_head head _)
        (exactMembers_head hhead (Node.exact_toJsons children hchildren))

theorem Node.exact_toJsons : ∀ nodes : List Node,
    (∀ error ∈ Node.errorsOfAll nodes, error.Exact) → ExactItems (Node.toJsons nodes)
  | [], _ => trivial
  | node :: rest, h => by
      obtain ⟨hnode, hrest⟩ := List.forall_mem_append.mp h
      exact ⟨Node.exact_toJson node hnode, Node.exact_toJsons rest hrest⟩

end

/-! ### Canonical texts -/

namespace Node

variable {a b : Node}

/-- Put in order, the canonical JSON of a plain tree is read as the tree. -/
theorem ofJson?_settled (h : a.Plain) : Node.ofJson? a.toJson.settled = some a := by
  have hread : Node.ofJson? a.toJson.settled = (Node.ofJson? a.toJson).map Node.settled :=
    nodeOfJson?_settled false a.toJson (a.exact_toJson fun error herror => (h error herror).1)
  rw [hread, Node.ofJson?_toJson, Option.map_some,
    a.settled_eq_self fun error herror => (h error herror).2]

/-- The canonical text of a plain tree is read as the tree exactly when the reader of JSON goes deep
enough. -/
theorem ofJson?_key (h : a.Plain) :
    (Json.parse? a.key).bind Node.ofJson?
      = if a.toJson.depth ≤ maxNesting then some a else none := by
  rw [key, Json.parse?_text (a.exact_toJson fun error herror => (h error herror).1)]
  split
  · exact ofJson?_settled h
  · rfl

/-- **The canonical text identifies the tree.** Of trees whose errors hold no floating-point
numbers, two have the same canonical text exactly when they are one tree; and the canonical text of
such a tree is read as the tree when its arrays and objects nest at most 127 deep, and refused
otherwise. -/
theorem key_identifies (ha : a.Plain) (hb : b.Plain) :
    (a.key = b.key ↔ a = b) ∧
      (Json.parse? a.key).bind Node.ofJson?
        = if a.toJson.depth ≤ maxNesting then some a else none := by
  refine ⟨⟨key_inj, ?_⟩, ofJson?_key ha⟩
  rintro rfl
  rfl

/-- Two sheets that differ in the text of an error, which needs escapes. -/
theorem key_identifies_of_escapes :
    let sheet (message : String) : Node :=
      .block (.stylesheet (some "a.css")
          [.object [("line", .number (.integer (-1))), ("message", .string message)]])
        [.block (.rule ["a", "b"]) [.statement (.comment "\"\\") none]
          (some { start := ⟨1, 4294967295⟩, source := some "a\nb.css" })] none
    (sheet "\x01").Plain ∧ (sheet "").Plain ∧
      ((sheet "\x01").key = (sheet "").key ↔ sheet "\x01" = sheet "") ∧
      (Json.parse? (sheet "\x01").key).bind Node.ofJson?
        = if (sheet "\x01").toJson.depth ≤ maxNesting then some (sheet "\x01") else none := by
  intro sheet
  have hplain : ∀ message, (sheet message).Plain := by
    intro message error herror
    obtain rfl : error
        = .object [("line", .number (.integer (-1))), ("message", .string message)] := by
      simpa [sheet, errors, errorsOfAll, Head.errors] using herror
    have horder : ¬"message" < "line" := by decide
    constructor
    · exact ⟨by simp, ⟨by decide, by decide⟩, trivial, trivial⟩
    · simp [Json.settled, settledMembers, sortMembers, insertMember, horder]
  exact ⟨hplain _, hplain _, key_identifies (hplain _) (hplain _)⟩

/-! ### Deep trees -/

/-- A block inside as many blocks as a number says. -/
def nested : Nat → Node
  | 0 => .block (.media "a") [] none
  | n + 1 => .block (.media "a") [nested n] none

theorem plain_nested (n : Nat) : (nested n).Plain := by
  induction n with
  | zero => exact nofun
  | succ n ih =>
      intro error herror
      have hinner : error ∈ (nested n).errors := by
        simpa [nested, errors, errorsOfAll, Head.errors] using herror
      exact ih error hinner

/-- Each block takes an object and an array. -/
theorem depth_nested (n : Nat) : (nested n).toJson.depth = 2 * n + 2 := by
  induction n with
  | zero => rfl
  | succ n ih =>
      simp [nested, toJson, toJsons, tagged, Head.members, positionMember, member?, Json.depth,
        Json.depthOfMembers, Json.depthOfItems, ih]
      omega

/-- The canonical text of sixty-four blocks, each inside the one before, is refused. -/
theorem deep_key_refused :
    (nested 63).Plain ∧ (Json.parse? (nested 63).key).bind Node.ofJson? = none := by
  refine ⟨plain_nested 63, ?_⟩
  rw [ofJson?_key (plain_nested 63), depth_nested]
  rfl

end Node

end StylePrint.Sheet
