import StylePrint.Proofs.SourceMap.Linked
import StylePrint.Proofs.Text.Percent
/-!
The ways in which a text carries a map. Its annotation may hold the map in Base64, or with percent
escapes, or name the file that holds it (`Carrier`). Whichever it is, and whatever stands before
the annotation, a reader of the text gets the same map (`carriers_agree`).
-/

namespace StylePrint.SourceMap

open LinkComment (isAddressChar BlockForm)

/-! ### Texts of maps -/

/-- The guard in front of a map's text is passed over. -/
theorem parseGuarded_guarded (m : RawMap) : parseGuarded (")]\x7d'" ++ m.text) = .ok m := by
  have hguard : LinkComment.after? guardChars (")]\x7d'" ++ m.text).toList = some m.text.toList := by
    rw [String.toList_append]
    exact LinkComment.after?_append guardChars m.text.toList
  unfold parseGuarded
  rw [hguard]
  simp only [Option.map_some, Option.getD_some, String.ofList_toList, RawMap.parse?_text]

theorem isAddressChar_escaping {cs written : List Char}
    (h : Text.Percent.Escaping isAddressChar cs written) :
    ∀ c ∈ written, isAddressChar c = true := by
  have hlower : ∀ v < 16, isAddressChar (Json.hexDigit v) = true := by decide
  have hupper : ∀ v < 16, isAddressChar (Json.hexDigit v).toUpper = true := by decide
  intro c hc
  rcases h.mem c hc with hraw | rfl | ⟨v, hv, rfl | rfl⟩
  · exact hraw
  · rfl
  · exact hlower v hv
  · exact hupper v hv

/-! ### Carriers -/

/-- How an address leads a reader of the text at `path` to a map: with the address, the path that
the map's sources are relative to, and the files that are read. -/
inductive Carrier (m : RawMap) (path : String) (reader : Reader) :
    List Char → String → List String → Prop where
  /-- The address holds the map's text in Base64. -/
  | base64 (header : DataHeader) (hbase64 : "base64".toList ∈ header.parameters) :
      Carrier m path reader
        (header.address (Text.Base64.encode (Text.Utf8.encode m.text.toList))) path []
  /-- The address holds the map's text with percent escapes: percent signs, quotes and white space
  are escaped, and other characters may be. -/
  | escaped (header : DataHeader) (hplain : "base64".toList ∉ header.parameters)
      {written : List Char} (hwritten : Text.Percent.Escaping isAddressChar m.text.toList written) :
      Carrier m path reader (header.address written) path []
  /-- The address names the file that holds the map's text, with the guard in front or without. -/
  | file {address : List Char} (hchars : ∀ c ∈ address, isAddressChar c = true)
      (hrelative : UrlPath.isAbsolute (String.ofList address) = false) {text : String}
      (hread : reader (UrlPath.join (UrlPath.directory path) (String.ofList address)) = .ok text)
      (htext : text = m.text ∨ text = ")]\x7d'" ++ m.text) :
      Carrier m path reader address
        (UrlPath.join (UrlPath.directory path) (String.ofList address))
        [UrlPath.join (UrlPath.directory path) (String.ofList address)]

namespace Carrier

variable {m : RawMap} {path relativeTo : String} {reader : Reader} {address : List Char}
  {asked : List String}

/-- No address of a map has a character that ends it. -/
theorem isAddressChar_address (h : Carrier m path reader address relativeTo asked) :
    ∀ c ∈ address, isAddressChar c = true := by
  cases h with
  | base64 header hbase64 => exact header.isAddressChar_address (isAddressChar_encode _)
  | escaped header hplain hwritten =>
      exact header.isAddressChar_address (isAddressChar_escaping hwritten)
  | file hchars hrelative hread htext => exact hchars

/-- From its address the map is loaded. -/
theorem run_load (h : Carrier m path reader address relativeTo asked) :
    (load (String.ofList address) path).run.run reader
      = (.ok ⟨m, String.ofList address, relativeTo⟩, asked) := by
  cases h with
  | base64 header hbase64 =>
      rw [header.load_address]
      · rfl
      · rw [List.contains_iff_mem.mpr hbase64, DataUri.payload_encode]
  | escaped header hplain hwritten =>
      rw [header.load_address]
      · rfl
      · rw [header.payload_plain hplain, Text.Percent.decode_escaping hwritten]
        rfl
  | file hchars hrelative hread htext =>
      refine load_file hrelative hread ?_
      rcases htext with rfl | rfl
      · exact parseGuarded_text m
      · exact parseGuarded_guarded m

end Carrier

/-- **All carriers of a map agree.** Behind any text, a block annotation in any of its forms whose
address carries a map leads to this map: the reader of the text gets it, with the address and the
path that its sources are relative to, and reads the one file that the address names, or none when
the address holds the map. -/
theorem carriers_agree {m : RawMap} {path relativeTo : String} {reader : Reader}
    {address : List Char} {asked : List String}
    (h : Carrier m path reader address relativeTo asked) (text : String) (form : BlockForm) :
    (linkedMap? (text ++ String.ofList (form.wrap address)) path).run.run reader
      = (.ok (some ⟨m, String.ofList address, relativeTo⟩), asked) := by
  exact run_linkedMap? (form.address?_wrap text h.isAddressChar_address) h.run_load

/-- A map whose text holds what ends an address, a comment, a header and an escape, behind an
annotation that breaks off: in Base64, with escapes, and in a file behind the guard. -/
theorem carriers_agree_of_marks :
    let m : RawMap :=
      { version := 3, sources := ["a,b;c.scss", "*/ é%"], names := ["\x01'"], mappings := "AAAA"
        file := none, sourceRoot := none, sourcesContent := none }
    let text := "a\x7b\x7d/*# sourceMappingURL="
    let form : BlockForm := ⟨['\n', '/', '/'], '@', [], ['\n'],
      .inr ⟨[], rfl, .inr rfl⟩, .inr rfl, rfl, rfl⟩
    let path := "css/a.css"
    let reader : Reader := fun asked =>
      if asked = "css/maps/a.map" then .ok (")]\x7d'" ++ m.text) else .error .notFound
    let linked (address : List Char) :=
      (linkedMap? (text ++ String.ofList (form.wrap address)) path).run.run reader
    let coded : DataHeader := ⟨"application/json".toList, ["charset=utf-8".toList,
      "base64".toList], rfl, by decide⟩
    let plain : DataHeader := ⟨[], [], rfl, nofun⟩
    let inBase64 := coded.address (Text.Base64.encode (Text.Utf8.encode m.text.toList))
    let escaped := plain.address (Text.Percent.escape isAddressChar m.text.toList)
    (Carrier m path reader inBase64 path [] ∧ Carrier m path reader escaped path [] ∧
        Carrier m path reader "maps/a.map".toList "css/maps/a.map" ["css/maps/a.map"]) ∧
      linked inBase64 = (.ok (some ⟨m, String.ofList inBase64, path⟩), []) ∧
      linked escaped = (.ok (some ⟨m, String.ofList escaped, path⟩), []) ∧
      linked "maps/a.map".toList
        = (.ok (some ⟨m, "maps/a.map", "css/maps/a.map"⟩), ["css/maps/a.map"]) := by
  intro m text form path reader linked coded plain inBase64 escaped
  have hcoded : Carrier m path reader inBase64 path [] := .base64 coded (by decide)
  have hescaped : Carrier m path reader escaped path [] :=
    .escaped plain (by decide) (Text.Percent.escaping_escape isAddressChar m.text.toList)
  have hname : String.ofList "maps/a.map".toList = "maps/a.map" := String.ofList_toList
  have hjoin : UrlPath.join (UrlPath.directory path) (String.ofList "maps/a.map".toList)
      = "css/maps/a.map" := by decide +kernel
  have hread : reader (UrlPath.join (UrlPath.directory path) (String.ofList "maps/a.map".toList))
      = .ok (")]\x7d'" ++ m.text) := by
    rw [hjoin]
    exact if_pos rfl
  have hfile : Carrier m path reader "maps/a.map".toList _ _ :=
    .file (List.all_eq_true.mp (by decide)) (by decide) hread (.inr rfl)
  rw [hjoin] at hfile
  have hlinked := carriers_agree hfile text form
  rw [hname] at hlinked
  exact ⟨⟨hcoded, hescaped, hfile⟩, carriers_agree hcoded text form,
    carriers_agree hescaped text form, hlinked⟩

end StylePrint.SourceMap
