import StylePrint.Proofs.Json.Ascending
import StylePrint.Proofs.Sheet.RoundTrip
/-!
Trees read from JSON whose members are in ascending order of name. A reader finds fields by their
names, so putting the members in order changes nothing for it (`Json.fields?_settled`), and a tree
is read as before, except that the members of the errors it carries are in order too
(`nodeOfJson?_settled`).
-/

namespace StylePrint

namespace Json

/-! ### Members in order -/

theorem length_settledItems (items : List Json) : (settledItems items).length = items.length := by
  rw [settledItems_eq_map, List.length_map]

theorem getElem?_settledItems (items : List Json) (i : Nat) :
    (settledItems items)[i]? = items[i]?.map settled := by
  rw [settledItems_eq_map, List.getElem?_map]

theorem lookup_settledMembers (members : List (String × Json)) (name : String) :
    (settledMembers members).lookup name = (members.lookup name).map settled := by
  induction members with
  | nil => rfl
  | cons member rest ih =>
      obtain ⟨key, value⟩ := member
      rw [settledMembers, List.lookup_cons, List.lookup_cons, ih]
      cases name == key <;> rfl

theorem map_fst_settledMembers (members : List (String × Json)) :
    (settledMembers members).map Prod.fst = members.map Prod.fst := by
  induction members with
  | nil => rfl
  | cons member rest ih => rw [settledMembers, List.map_cons, List.map_cons, ih]

/-- In order, a member is found with its own members in order. -/
theorem lookup_settled {members : List (String × Json)} (h : (members.map Prod.fst).Nodup)
    (name : String) :
    (sortMembers (settledMembers members)).lookup name = (members.lookup name).map settled := by
  rw [lookup_sortMembers (by rwa [map_fst_settledMembers]), lookup_settledMembers]

/-! ### Readers of fields -/

theorem exact_of_lookup {members : List (String × Json)} (h : ExactMembers members) {name : String}
    {value : Json} (hlookup : members.lookup name = some value) : value.Exact := by
  induction members with
  | nil => cases hlookup
  | cons member rest ih =>
      obtain ⟨key, other⟩ := member
      rw [List.lookup_cons] at hlookup
      split at hlookup
      · obtain rfl := Option.some.inj hlookup
        exact h.1
      · exact ih h.2 hlookup

theorem exact_of_getElem? {items : List Json} (h : ExactItems items) {i : Nat} {value : Json}
    (hitem : items[i]? = some value) : value.Exact := by
  induction items generalizing i with
  | nil => cases hitem
  | cons item rest ih =>
      cases i with
      | zero =>
          obtain rfl := Option.some.inj hitem
          exact h.1
      | succ i => exact ih h.2 (by simpa using hitem)

/-- **The fields of a record do not show the order of its members.** -/
theorem fields?_settled {j : Json} (h : j.Exact) (names : List String) :
    j.settled.fields? names
      = (j.fields? names).map fun field name => (field name).map settled := by
  cases j with
  | object members =>
      simp only [settled, fields?, Option.map_some, Option.some.injEq]
      funext name
      exact lookup_settled h.1 name
  | array items =>
      simp only [settled, fields?, length_settledItems, getElem?_settledItems]
      split <;> rfl
  | _ => rfl

/-- The fields of an exact record are exact. -/
theorem exact_of_field {j : Json} (h : j.Exact) {names : List String}
    {field : String → Option Json} (hfield : j.fields? names = some field) {name : String} :
    ∀ value ∈ field name, value.Exact := by
  intro value hvalue
  cases j with
  | object members =>
      obtain rfl := Option.some.inj hfield
      exact exact_of_lookup h.2 hvalue
  | array items =>
      rw [fields?] at hfield
      split at hfield
      · obtain rfl := Option.some.inj hfield
        exact exact_of_getElem? h hvalue
      · cases hfield
  | _ => cases hfield

section Readers

variable {α : Type} {read : Json → Option α}
  (hread : ∀ j : Json, j.Exact → read j.settled = read j)

include hread

theorem required_settled {value : Option Json} (h : ∀ j ∈ value, j.Exact) :
    required read (value.map settled) = required read value := by
  cases value with
  | none => rfl
  | some j => exact hread j (h j rfl)

theorem defaulted_settled {value : Option Json} (h : ∀ j ∈ value, j.Exact) (default : α) :
    defaulted read default (value.map settled) = defaulted read default value := by
  cases value with
  | none => rfl
  | some j => exact hread j (h j rfl)

theorem optional_settled {value : Option Json} (h : ∀ j ∈ value, j.Exact) :
    optional read (value.map settled) = optional read value := by
  cases value with
  | none => rfl
  | some j =>
      have hj := hread j (h j rfl)
      cases j <;> first | rfl | exact congrArg (Option.map some) hj

end Readers

theorem string?_settled (j : Json) (_ : j.Exact) : j.settled.string? = j.string? := by
  cases j <;> rfl

theorem word?_settled (j : Json) (_ : j.Exact) : j.settled.word? = j.word? := by
  cases j <;> rfl

/-- The items of a value that may be missing are those in order. -/
theorem defaulted_items?_settled (value : Option Json) :
    defaulted items? [] (value.map settled) = (defaulted items? [] value).map settledItems := by
  cases value with
  | none => rfl
  | some j => cases j <;> rfl

theorem strings?_settled (j : Json) (h : j.Exact) : j.settled.strings? = j.strings? := by
  cases j with
  | array items =>
      simp only [settled, strings?, items?, Option.bind_eq_bind, Option.bind_some]
      induction items with
      | nil => rfl
      | cons item rest ih =>
          rw [settledItems, List.mapM_cons, List.mapM_cons, string?_settled item h.1, ih h.2]
  | _ => rfl

end Json

namespace Sheet

open Json

/-! ### Positions -/

theorem Location.ofJson?_settled (j : Json) (h : j.Exact) :
    Location.ofJson? j.settled = Location.ofJson? j := by
  unfold Location.ofJson?
  rw [fields?_settled h]
  cases hfields : j.fields? ["line", "column"] with
  | none => rfl
  | some field =>
      simp only [Option.map_some, Option.bind_eq_bind, Option.bind_some,
        required_settled word?_settled (exact_of_field h hfields)]

theorem Position.ofJson?_settled (j : Json) (h : j.Exact) :
    Position.ofJson? j.settled = Position.ofJson? j := by
  unfold Position.ofJson?
  rw [fields?_settled h]
  cases hfields : j.fields? ["start", "end", "source", "content"] with
  | none => rfl
  | some field =>
      have hfield : ∀ name, ∀ value ∈ field name, value.Exact :=
        fun name => exact_of_field h hfields
      simp only [Option.map_some, Option.bind_eq_bind, Option.bind_some,
        required_settled Location.ofJson?_settled (hfield _),
        defaulted_settled Location.ofJson?_settled (hfield _),
        optional_settled string?_settled (hfield _)]

/-! ### Nodes -/

/-- A head with the members of its errors in ascending order of name. -/
def Head.settled : Head → Head
  | .stylesheet source parsingErrors => .stylesheet source (settledItems parsingErrors)
  | head => head

mutual

/-- A tree with the members of the errors it carries in ascending order of name. -/
def Node.settled : Node → Node
  | .statement content position => .statement content position
  | .block head children position => .block head.settled (Node.settledAll children) position

/-- Trees with the members of the errors they carry in ascending order of name. -/
def Node.settledAll : List Node → List Node
  | [] => []
  | node :: rest => node.settled :: Node.settledAll rest

end

/-- A node is put together from fields in order as from fields in any order. -/
theorem assemble?_settled (kind : Kind) {field : String → Option Json}
    (hfield : ∀ name, ∀ value ∈ field name, value.Exact) (children : List Node) :
    assemble? kind (fun name => (field name).map Json.settled) (Node.settledAll children)
      = (assemble? kind field children).map Node.settled := by
  cases kind with
  | stylesheet =>
      simp only [assemble?, optional_settled Position.ofJson?_settled (hfield _),
        Option.bind_eq_bind, Option.map_bind, Function.comp_def]
      cases hbody : field "stylesheet" with
      | none => rfl
      | some body =>
          have hexact := hfield "stylesheet" body hbody
          simp only [Option.map_some, Option.bind_some, fields?_settled hexact]
          cases hinner : body.fields? Kind.bodyNames with
          | none => rfl
          | some inner =>
              have hvalue : ∀ name, ∀ value ∈ inner name, value.Exact :=
                fun name => exact_of_field hexact hinner
              simp only [Option.map_some, Option.bind_some, Function.comp_def,
                optional_settled string?_settled (hvalue _), defaulted_items?_settled,
                Option.bind_map, Option.pure_def, Node.settled, Head.settled]
  | _ =>
      simp only [assemble?, required_settled string?_settled (hfield _),
        required_settled strings?_settled (hfield _), defaulted_settled strings?_settled (hfield _),
        optional_settled Position.ofJson?_settled (hfield _),
        optional_settled string?_settled (hfield _), Option.bind_eq_bind, Option.map_bind,
        Function.comp_def, Option.pure_def, Option.map_some, Node.settled, Head.settled]

theorem bind_assemble?_settled (kind : Kind) {field : String → Option Json}
    (hfield : ∀ name, ∀ value ∈ field name, value.Exact) (children : Option (List Node)) :
    ((children.map Node.settledAll).bind
        (assemble? kind fun name => (field name).map Json.settled))
      = (children.bind (assemble? kind field)).map Node.settled := by
  cases children with
  | none => rfl
  | some children => exact assemble?_settled kind hfield children

theorem ofTag?_settled (nested : Bool) (tag : Json) :
    Kind.ofTag? nested tag.settled = Kind.ofTag? nested tag := by
  cases tag <;> rfl

mutual

/-- **A node is read from members in order as from members in any order**, with the members of its
errors in order. -/
theorem nodeOfJson?_settled (nested : Bool) : ∀ j : Json, j.Exact →
    nodeOfJson? nested j.settled = (nodeOfJson? nested j).map Node.settled
  | .object members, h => by
      have hlookup := funext (lookup_settled h.1)
      have hfield : ∀ name, ∀ value ∈ members.lookup name, value.Exact :=
        fun name value hvalue => exact_of_lookup h.2 hvalue
      rw [Json.settled, nodeOfJson?, nodeOfJson?, lookup_settled h.1]
      cases htag : members.lookup "type" with
      | none => rfl
      | some tag =>
          simp only [Option.map_some, Option.bind_eq_bind, Option.bind_some, ofTag?_settled]
          cases hkind : Kind.ofTag? nested tag with
          | none => rfl
          | some kind =>
              simp only [Option.bind_some, hlookup]
              cases kind.slot with
              | nowhere => exact assemble?_settled kind hfield []
              | field name =>
                  simp only
                  rw [memberNodes_eq name (sortMembers _), lookup_settled h.1,
                    memberNodes_settled name members h.2]
                  exact bind_assemble?_settled kind hfield _
              | body =>
                  simp only
                  rw [memberBody_eq (sortMembers _), lookup_settled h.1,
                    memberBody_settled members h.2]
                  exact bind_assemble?_settled kind hfield _
  | .array [], _ => rfl
  | .array (tag :: items), h => by
      rw [Json.settled, settledItems, nodeOfJson?, nodeOfJson?, ofTag?_settled]
      cases hkind : Kind.ofTag? nested tag with
      | none => rfl
      | some kind =>
          have hfield : ∀ name, ∀ value ∈ items[kind.fieldNames.idxOf name]?, value.Exact :=
            fun name value hvalue => exact_of_getElem? h.2 hvalue
          simp only [Option.bind_eq_bind, Option.bind_some, length_settledItems,
            getElem?_settledItems]
          split
          · cases kind.slot with
            | nowhere => exact assemble?_settled kind hfield []
            | field name =>
                simp only [itemNodes_settled _ items h.2]
                exact bind_assemble?_settled kind hfield _
            | body =>
                simp only [itemBody_settled items h.2]
                exact bind_assemble?_settled kind hfield _
          · rfl
  | .null, _ | .bool _, _ | .number _, _ | .string _, _ => rfl

theorem memberNodes_settled (name : String) : ∀ members : List (String × Json),
    ExactMembers members →
    ((members.lookup name).map Json.settled).elim (some []) nodesOfJson?
      = (memberNodes name members).map Node.settledAll
  | [], _ => rfl
  | (other, value) :: rest, h => by
      rw [memberNodes, List.lookup_cons]
      by_cases hname : other = name
      · rw [if_pos hname, hname, beq_self_eq_true]
        exact nodesOfJson?_settled value h.1
      · rw [if_neg hname, beq_eq_false_iff_ne.mpr (Ne.symm hname)]
        exact memberNodes_settled name rest h.2

theorem itemNodes_settled : ∀ (n : Nat) (items : List Json), ExactItems items →
    itemNodes n (settledItems items) = (itemNodes n items).map Node.settledAll
  | _, [], _ => rfl
  | 0, value :: _, h => nodesOfJson?_settled value h.1
  | n + 1, _ :: rest, h => itemNodes_settled n rest h.2

theorem memberBody_settled : ∀ members : List (String × Json), ExactMembers members →
    ((members.lookup "stylesheet").map Json.settled).bind bodyNodes
      = (memberBody members).map Node.settledAll
  | [], _ => rfl
  | (other, value) :: rest, h => by
      rw [memberBody, List.lookup_cons]
      by_cases hname : other = "stylesheet"
      · rw [if_pos hname, hname, beq_self_eq_true]
        exact bodyNodes_settled value h.1
      · rw [if_neg hname, beq_eq_false_iff_ne.mpr (Ne.symm hname)]
        exact memberBody_settled rest h.2

theorem itemBody_settled : ∀ items : List Json, ExactItems items →
    itemBody (settledItems items) = (itemBody items).map Node.settledAll
  | [], _ => rfl
  | value :: _, h => bodyNodes_settled value h.1

theorem bodyNodes_settled : ∀ j : Json, j.Exact →
    bodyNodes j.settled = (bodyNodes j).map Node.settledAll
  | .object members, h => by
      rw [Json.settled, bodyNodes, bodyNodes, memberNodes_eq, lookup_settled h.1]
      exact memberNodes_settled "rules" members h.2
  | .array items, h => itemNodes_settled 1 items h
  | .null, _ | .bool _, _ | .number _, _ | .string _, _ => rfl

theorem nodesOfJson?_settled : ∀ j : Json, j.Exact →
    nodesOfJson? j.settled = (nodesOfJson? j).map Node.settledAll
  | .array items, h => listOfJson?_settled items h
  | .object _, _ | .null, _ | .bool _, _ | .number _, _ | .string _, _ => rfl

theorem listOfJson?_settled : ∀ items : List Json, ExactItems items →
    listOfJson? (settledItems items) = (listOfJson? items).map Node.settledAll
  | [], _ => rfl
  | item :: rest, h => by
      rw [settledItems, listOfJson?, listOfJson?, nodeOfJson?_settled true item h.1,
        listOfJson?_settled rest h.2]
      simp only [Option.bind_eq_bind, Option.bind_map, Option.map_bind, Function.comp_def,
        Option.pure_def, Option.map_some, Node.settledAll]

end

end Sheet

end StylePrint
