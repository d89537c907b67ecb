import StylePrint.SourceMap.Raw
import StylePrint.Proofs.Json.Record
/-!
The members of a written map. Its fields stand under their own names, each once, and what they hold
reads as itself, so the JSON of a map is read as the map (`RawMap.ofJson?_toJson`).
-/

namespace StylePrint.SourceMap.RawMap

open Json

/-- The members of a map's JSON. -/
def members (m : RawMap) : List (String × Json) :=
  [("version", .word m.version),
   ("sources", .array (m.sources.map .string)),
   ("names", .array (m.names.map .string)),
   ("mappings", .string m.mappings)]
  ++ member? "file" (m.file.map .string)
  ++ member? "sourceRoot" (m.sourceRoot.map .string)
  ++ member? "sourcesContent" (m.sourcesContent.map fun contents => .array (contents.map .orNull))

theorem toJson_eq (m : RawMap) : m.toJson = .object m.members := rfl

/-! ### What the members hold -/

/-- A property of values that the required fields have, and the others where they are given, is one
of all members. -/
theorem forall_members {m : RawMap} {P : Json → Prop} (hword : ∀ w, P (word w))
    (hstring : ∀ s, P (.string s))
    (hstrings : ∀ items : List String, P (.array (items.map .string)))
    (hcontents : ∀ items : List (Option String), P (.array (items.map .orNull))) :
    ∀ member ∈ m.members, P member.2 := by
  intro member hmember
  simp only [members, member?, List.mem_append, List.mem_cons, List.not_mem_nil, or_false,
    Option.mem_toList, Option.map_map, Option.map_eq_some_iff, Function.comp_apply] at hmember
  rcases hmember with (((rfl | rfl | rfl | rfl) | ⟨s, -, rfl⟩) | ⟨s, -, rfl⟩) | ⟨items, -, rfl⟩
  · exact hword _
  · exact hstrings _
  · exact hstrings _
  · exact hstring _
  · exact hstring s
  · exact hstring s
  · exact hcontents items

/-! ### Where the members stand -/

theorem names_member? (name : String) (value : Option Json) :
    ((member? name value).map Prod.fst).Sublist [name] := by
  cases value <;> simp [member?]

/-- The fields stand under names of their own. -/
theorem names_members (m : RawMap) : (m.members.map Prod.fst).Sublist fieldNames := by
  simp only [members, List.map_append, List.map_cons, List.map_nil]
  exact (((List.Sublist.refl _).append (names_member? ..)).append (names_member? ..)).append
    (names_member? ..)

theorem nodup_members (m : RawMap) : (m.members.map Prod.fst).Nodup :=
  (names_members m).nodup (by simp [fieldNames])

/-! ### The map read back -/

theorem ofJson?_object (version sources names mappings : Json)
    (file sourceRoot contents : Option Json) :
    ofJson? (.object ([("version", version), ("sources", sources), ("names", names),
        ("mappings", mappings)] ++ member? "file" file ++ member? "sourceRoot" sourceRoot
        ++ member? "sourcesContent" contents))
      = version.word?.bind fun version => sources.strings?.bind fun sources =>
          names.strings?.bind fun names => mappings.string?.bind fun mappings =>
            (optional string? file).bind fun file =>
              (optional string? sourceRoot).bind fun sourceRoot =>
                (optional nullableStrings? contents).bind fun contents =>
                  some ⟨version, sources, names, mappings, file, sourceRoot, contents⟩ := by
  cases file <;> cases sourceRoot <;> cases contents <;> rfl

/-- The JSON of a map is read as the map. -/
theorem ofJson?_toJson (m : RawMap) : ofJson? m.toJson = some m := by
  have string : ∀ value : Option String,
      optional string? (value.map Json.string) = some value :=
    optional_map (fun _ => rfl) nofun
  have contents : ∀ value : Option (List (Option String)),
      optional nullableStrings? (value.map fun items => Json.array (items.map .orNull))
        = some value :=
    optional_map nullableStrings?_map nofun
  rw [toJson, ofJson?_object, word?_word, strings?_map, strings?_map, string, string, contents]
  rfl

end StylePrint.SourceMap.RawMap
