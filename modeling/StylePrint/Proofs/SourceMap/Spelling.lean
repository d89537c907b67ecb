import StylePrint.SourceMap.Linked
import StylePrint.Proofs.Json.Respelling
import StylePrint.Proofs.SourceMap.LinkComment
import StylePrint.Proofs.SourceMap.RawMembers
/-!
The spellings of a map. The text of a map is one of many that spell it: the fields may stand in any
order and among members of any other names, and a field that may be left out may be spelled out.
All of them are read as the map (`RawMap.parse?_of_spelled`), the text of the map among them
(`RawMap.parse?_text`), so no text spells two maps (`RawMap.spellings_are_read`).
-/

namespace StylePrint.SourceMap

namespace RawMap

open Json

/-! ### Fields -/

/-- Which fields of a map may be left out. -/
def presence : String → Option (Presence Json)
  | "version" | "sources" | "mappings" => some .required
  | "names" => some (.defaulted (.array []))
  | "file" | "sourceRoot" | "sourcesContent" => some .optional
  | _ => none

theorem mem_fieldNames_iff {name : String} :
    name ∈ fieldNames ↔ ∃ field, presence name = some field := by
  rw [← Option.isSome_iff_exists]
  unfold presence
  split <;> simp_all [fieldNames]

/-- The only field with a default is empty when it is missing. -/
theorem plain_default {name : String} {default : Json}
    (h : presence name = some (.defaulted default)) : default.Plain := by
  unfold presence at h
  split at h <;> cases h
  rfl

/-- Objects that hold the same in every field are read as the same map. -/
theorem ofJson?_congr {members others : List (String × Json)}
    (h : ∀ name field, presence name = some field →
      field.fill .null (others.lookup name) = field.fill .null (members.lookup name)) :
    ofJson? (.object others) = ofJson? (.object members) := by
  have required (name : String) (hfield : presence name = some .required) :
      others.lookup name = members.lookup name :=
    h name .required hfield
  have optional {α : Type} (read : Json → Option α) (name : String)
      (hfield : presence name = some .optional) :
      Json.optional read (others.lookup name) = Json.optional read (members.lookup name) := by
    rw [← optional_fill, h name .optional hfield, optional_fill]
  have names : Json.defaulted strings? [] (others.lookup "names")
      = Json.defaulted strings? [] (members.lookup "names") := by
    have hread : strings? (.array []) = some [] := rfl
    have hfill : some ((others.lookup "names").getD (.array []))
        = some ((members.lookup "names").getD (.array [])) := h "names" _ rfl
    rw [defaulted_eq_getD hread, defaulted_eq_getD hread, Option.some.inj hfill]
  simp only [ofJson?, fields?, Option.bind_eq_bind, Option.bind_some, names,
    required "version" rfl, required "sources" rfl, required "mappings" rfl,
    optional _ "file" rfl, optional _ "sourceRoot" rfl, optional _ "sourcesContent" rfl]

/-! ### Spellings -/

/-- The members of the tree of a map's text. -/
def trees (m : RawMap) : List (String × Written) :=
  m.members.map fun member => (member.1, member.2.written)

/-- Whether a text spells a map: it is an object, and its members are those of the map's text spelled
in another way. What members hold that are no fields does not matter. -/
def SpelledBy (m : RawMap) (text : String) : Prop :=
  ∃ members, Written.parse? text = some (Written.named members) ∧
    Relation.ReflTransGen
      (Respelled .null fun name => (presence name).map (Presence.map written)) m.trees members

theorem plain_members (m : RawMap) : ∀ member ∈ m.members, member.2.Plain := by
  refine forall_members ?_ ?_ ?_ ?_
  · exact fun w => plain_of_settled (exact_word w) rfl
  · exact fun s => plain_of_settled (exact_string s) rfl
  · exact fun items => plain_of_settled (exact_array_map exact_string items)
      (settled_array_map (fun _ => rfl) items)
  · exact fun items => plain_of_settled (exact_array_map exact_orNull items)
      (settled_array_map settled_orNull items)

/-- What a field of a map holds is plain, written out or not. -/
theorem plain_fill (m : RawMap) {name : String} {field : Presence Json}
    (hfield : presence name = some field) {j : Json}
    (h : field.fill .null (m.members.lookup name) = some j) : j.Plain := by
  cases hlookup : m.members.lookup name with
  | some value =>
      rw [hlookup, Presence.fill_some] at h
      have hmem := (List.lookup_eq_some_iff_mem (nodup_members m)).mp hlookup
      exact Option.some.inj h ▸ plain_members m _ hmem
  | none =>
      rw [hlookup] at h
      cases field with
      | required => cases h
      | optional =>
          obtain rfl : Json.null = j := Option.some.inj h
          rfl
      | defaulted default =>
          obtain rfl : default = j := Option.some.inj h
          exact plain_default hfield

/-! ### Reading a spelling -/

section

variable {m : RawMap} {members : List (String × Written)}
  (h : Relation.ReflTransGen
    (Respelled .null fun name => (presence name).map (Presence.map written)) m.trees members)

include h

theorem nodup_of_respelled : (members.map Prod.fst).Nodup := by
  induction h with
  | refl =>
      rw [trees, List.keys_map_snd]
      exact nodup_members m
  | tail _ hstep ih => exact hstep.nodup ih

/-- A spelling holds in each field what the map's text holds. -/
theorem fill_of_respelled {name : String} {field : Presence Json}
    (hfield : presence name = some field) :
    (field.map written).fill .null (members.lookup name)
      = (field.fill .null (m.members.lookup name)).map written := by
  induction h with
  | refl =>
      rw [trees, List.lookup_map_snd, ← Presence.fill_map]
      rfl
  | tail _ hstep ih => exact (hstep.fill_lookup (by rw [hfield]; rfl)).trans ih

theorem value_of_respelled {name : String} {field : Presence Json}
    (hfield : presence name = some field) :
    field.fill .null ((members.lookup name).bind Written.value?)
        = field.fill .null (m.members.lookup name) ∧
      ∀ tree, members.lookup name = some tree → tree.value?.isSome :=
  fill_value? (fun _ hdefault => plain_default (hdefault ▸ hfield))
    (fun _ => plain_fill m hfield) (fill_of_respelled h hfield)

/-- The record of a spelling is the map. -/
theorem record_of_respelled :
    ∃ j, (Written.named members).record? fieldNames = some j ∧ ofJson? j = some m := by
  have hvalue : ∀ name ∈ fieldNames, ∀ tree, members.lookup name = some tree →
      tree.value?.isSome := by
    intro name hname
    obtain ⟨field, hfield⟩ := mem_fieldNames_iff.mp hname
    exact (value_of_respelled h hfield).2
  obtain ⟨values, hrecord, hlookup⟩ :=
    Written.record?_named (nodup_of_respelled h) hvalue
  refine ⟨.object values, hrecord, ?_⟩
  rw [← ofJson?_toJson m, toJson_eq]
  refine ofJson?_congr fun name field hfield => ?_
  rw [hlookup name (mem_fieldNames_iff.mpr ⟨field, hfield⟩), (value_of_respelled h hfield).1]

end

theorem parse?_eq {text : String} {tree : Written} {j : Json}
    (htree : Written.parse? text = some tree) (hrecord : tree.record? fieldNames = some j) :
    parse? text = ofJson? j := by
  rw [parse?, htree, Option.bind_eq_bind, Option.bind_some, hrecord]
  rfl

/-- Every spelling of a map is read as the map. -/
theorem parse?_of_spelled {m : RawMap} {text : String} (h : m.SpelledBy text) :
    parse? text = some m := by
  obtain ⟨members, htree, hrespelled⟩ := h
  obtain ⟨j, hrecord, hj⟩ := record_of_respelled hrespelled
  exact (parse?_eq htree hrecord).trans hj

/-- The text of an object whose members are those of a map, spelled in another way, spells the
map. -/
theorem spelledBy_text {m : RawMap} {members : List (String × Json)}
    (h : Relation.ReflTransGen (Respelled .null presence) m.members members) :
    m.SpelledBy (Json.object members).text := by
  refine ⟨_, (Written.parse?_text _).trans (congrArg some (Written.written_object members)), ?_⟩
  exact h.lift _ fun _ _ hstep => hstep.map written

/-- **The text of a map is read as the map.** -/
theorem parse?_text (m : RawMap) : parse? m.text = some m :=
  parse?_of_spelled (spelledBy_text .refl)

end RawMap

/-! ### Behind the guard -/

/-- The guard is no beginning of a JSON text. -/
theorem parseGuarded_of_tree {text : String} {tree : Json.Written}
    (h : Json.Written.parse? text = some tree) :
    parseGuarded text = match RawMap.parse? text with
      | some map => .ok map
      | none => .error .json := by
  have hguard : LinkComment.after? guardChars text.toList = none := by
    rw [Option.eq_none_iff_forall_ne_some]
    intro rest hafter
    rw [Json.Written.parse?, LinkComment.after?_eq_some.mp hafter] at h
    cases h
  unfold parseGuarded
  rw [hguard]
  rfl

theorem parseGuarded_text (m : RawMap) : parseGuarded m.text = .ok m := by
  have htree : Json.Written.parse? m.text = some m.toJson.written :=
    Json.Written.parse?_text m.toJson
  rw [parseGuarded_of_tree htree, RawMap.parse?_text]

namespace RawMap

open Json

/-- **Every spelling of a map is read as the map.** The text of a map is read as the map, so maps
with one text are one map. It is one of the spellings of the map, and so is the text of every object
with the members of the map in another order, with unknown members, with `null` for a field that is
left out, or without the empty names. Each spelling is read as the map, with white space and escapes
as its text has them and whatever its unknown members hold; so no text spells two maps. -/
theorem spellings_are_read (m : RawMap) :
    (parseGuarded m.text = .ok m ∧ ∀ n : RawMap, n.text = m.text → n = m) ∧
    (∀ members : List (String × Json),
      Relation.ReflTransGen (Respelled .null presence) m.members members →
      m.SpelledBy (Json.object members).text) ∧
    ∀ text, m.SpelledBy text → parse? text = some m ∧ parseGuarded text = .ok m ∧
      ∀ n : RawMap, n.SpelledBy text → n = m := by
  have hunique {text : String} {n : RawMap} (h : m.SpelledBy text) (hn : n.SpelledBy text) :
      n = m := Option.some.inj ((parse?_of_spelled hn).symm.trans (parse?_of_spelled h))
  refine ⟨⟨parseGuarded_text m, ?_⟩, fun members => spelledBy_text, ?_⟩
  · intro n htext
    have hn : n.SpelledBy m.text := htext ▸ spelledBy_text .refl
    exact hunique (spelledBy_text .refl) hn
  · intro text h
    refine ⟨parse?_of_spelled h, ?_, fun n => hunique h⟩
    obtain ⟨members, htree, -⟩ := id h
    rw [parseGuarded_of_tree htree, parse?_of_spelled h]

/-- A map whose members stand the other way round, without its empty names, with `null` for its
file, and with a member that no map has. -/
theorem spellings_are_read_of_reversed :
    let m : RawMap := ⟨3, ["a.css"], [], "AAAA", none, some "src", some [none]⟩
    let members : List (String × Json) :=
      [("sourcesContent", .array [.null]), ("sourceRoot", .string "src"), ("file", .null),
       ("mappings", .string "AAAA"), ("sources", .array [.string "a.css"]), ("version", .word 3),
       ("x_ratio", .object [("a", .array [.number (.float 0x3FF8000000000000)])])]
    Relation.ReflTransGen (Respelled .null presence) m.members members ∧
      parse? (Json.object members).text = some m := by
  intro m members
  have hdropped : Respelled .null presence m.members
      [("version", .word 3), ("sources", .array [.string "a.css"]), ("mappings", .string "AAAA"),
       ("sourceRoot", .string "src"), ("sourcesContent", .array [.null])] :=
    .dropped (m.members.take 2) (m.members.drop 3) rfl (by decide)
  have hnulled : Respelled .null presence
      [("version", .word 3), ("sources", .array [.string "a.css"]), ("mappings", .string "AAAA"),
       ("sourceRoot", .string "src"), ("sourcesContent", .array [.null])]
      members.dropLast.reverse :=
    .nulled ((m.members.eraseIdx 2).take 3) (m.members.drop 4) rfl (by decide)
  have hmoved : Respelled .null presence members.dropLast.reverse members.dropLast :=
    .moved (by decide) (List.reverse_perm _)
  have hadded : Respelled .null presence members.dropLast members :=
    .added members.dropLast [] _ rfl (by decide)
  have hspelled : Relation.ReflTransGen (Respelled .null presence) m.members members :=
    (((Relation.ReflTransGen.single hdropped).tail hnulled).tail hmoved).tail hadded
  obtain ⟨-, hspell, hread⟩ := spellings_are_read m
  exact ⟨hspelled, (hread _ (hspell members hspelled)).1⟩

end RawMap

end StylePrint.SourceMap
