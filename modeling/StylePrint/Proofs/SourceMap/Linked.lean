import StylePrint.Proofs.Separated
import StylePrint.Proofs.SourceMap.Reading
import StylePrint.Proofs.SourceMap.Spelling
import StylePrint.Proofs.Text.Base64
import StylePrint.Proofs.Text.Utf8
/-!
Where a link leads. A data address is read as its header says (`DataHeader.decode_chars`), so a link
to one gives the map whose text it holds without reading a file (`DataHeader.load_address`); any
other address gives the map that the file beside the text holds (`load_file`).
-/

namespace StylePrint.SourceMap

open LinkComment (isAddressChar)

/-! ### Data addresses -/

namespace DataUri

theorem decode_eq {cs body : List Char} {parts : List (List Char)}
    (hbody : cs.dropWhile (· ≠ ',') = ',' :: body)
    (hparts : (cs.takeWhile (· ≠ ',')).splitOn ';' = parts)
    (hmap : isMapType (parts.head?.getD []) = true) :
    decode cs = (payload (parts.tail.contains "base64".toList) body).bind textOf := by
  rw [decode, hbody, hparts]
  exact if_pos hmap

/-- What is written in Base64 is read back. -/
theorem payload_encode (bytes : List UInt8) :
    payload true (Text.Base64.encode bytes) = .ok bytes := by
  rw [payload, if_pos rfl, Text.Base64.decode_encode]
  rfl

end DataUri

/-! ### Headers of data addresses -/

/-- Whether a character may stand in a part of a data address's header. -/
def isPartChar (c : Char) : Bool :=
  isAddressChar c && c ≠ ',' && c ≠ ';'

theorem isPartChar_iff {c : Char} :
    isPartChar c = true ↔ isAddressChar c = true ∧ c ≠ ',' ∧ c ≠ ';' := by
  simp [isPartChar, and_assoc]

/-- What stands between the scheme of a data address and its comma: a media type for maps and
parameters. -/
structure DataHeader where
  mediaType : List Char
  parameters : List (List Char)
  isMapType : DataUri.isMapType mediaType = true
  isParameter : ∀ parameter ∈ parameters, parameter.all isPartChar = true

namespace DataHeader

/-- The characters of a header. -/
def chars (header : DataHeader) : List Char :=
  [';'].intercalate (header.mediaType :: header.parameters)

variable (header : DataHeader)

theorem mem_part : ∀ part ∈ header.mediaType :: header.parameters, ∀ c ∈ part,
    isAddressChar c = true ∧ c ≠ ',' ∧ c ≠ ';' := by
  have hmedia : ∀ name ∈ ["", "application/json", "text/json"],
      name.toList.all isPartChar = true := by decide
  obtain ⟨name, hname, heq⟩ := List.any_eq_true.mp header.isMapType
  have hparts : ∀ part ∈ header.mediaType :: header.parameters, part.all isPartChar = true := by
    refine List.forall_mem_cons.mpr ⟨?_, header.isParameter⟩
    rw [← of_decide_eq_true heq]
    exact hmedia name hname
  intro part hpart c hc
  exact isPartChar_iff.mp (List.all_eq_true.mp (hparts part hpart) c hc)

/-- Nothing in a header ends an address, and no comma stands in it. -/
theorem mem_chars : ∀ c ∈ header.chars, isAddressChar c = true ∧ c ≠ ',' := by
  intro c hc
  rcases List.mem_of_mem_intercalate hc with hc | ⟨part, hpart, hc⟩
  · obtain rfl := List.mem_singleton.mp hc
    decide
  · obtain ⟨hchar, hcomma, -⟩ := header.mem_part part hpart c hc
    exact ⟨hchar, hcomma⟩

theorem splitOn_chars : header.chars.splitOn ';' = header.mediaType :: header.parameters := by
  apply List.splitOn_intercalate
  · intro part hpart hmem
    exact (header.mem_part part hpart ';' hmem).2.2 rfl
  · exact List.cons_ne_nil _ _

/-- Behind a header a payload is read as the parameters say. -/
theorem decode_chars (body : List Char) :
    DataUri.decode (header.chars ++ ',' :: body)
      = (DataUri.payload (header.parameters.contains "base64".toList) body).bind DataUri.textOf := by
  have hcomma : ∀ c ∈ header.chars, decide (c ≠ ',') = true := fun c hc =>
    decide_eq_true (header.mem_chars c hc).2
  have hbody : (header.chars ++ ',' :: body).dropWhile (· ≠ ',') = ',' :: body := by
    rw [List.dropWhile_append_of_pos hcomma]
    rfl
  have hparts : ((header.chars ++ ',' :: body).takeWhile (· ≠ ',')).splitOn ';'
      = header.mediaType :: header.parameters := by
    rw [List.takeWhile_append_of_pos hcomma]
    exact (congrArg _ (List.append_nil _)).trans header.splitOn_chars
  exact DataUri.decode_eq hbody hparts header.isMapType

/-- Behind a header without Base64 percent escapes are read. -/
theorem payload_plain (hplain : "base64".toList ∉ header.parameters) (body : List Char) :
    DataUri.payload (header.parameters.contains "base64".toList) body
      = (Text.Percent.decode body).mapError fun index => .dataUri (.percent index) := by
  have hcontains : header.parameters.contains "base64".toList = false := by
    rw [Bool.eq_false_iff, Ne, List.contains_iff_mem]
    exact hplain
  rw [hcontains]
  rfl

/-- The address of a payload behind a header. -/
def address (payload : List Char) : List Char :=
  "data:".toList ++ (header.chars ++ ',' :: payload)

theorem isAddressChar_address {payload : List Char}
    (h : ∀ c ∈ payload, isAddressChar c = true) :
    ∀ c ∈ header.address payload, isAddressChar c = true := by
  refine List.forall_mem_append.mpr ⟨List.all_eq_true.mp (by decide), ?_⟩
  refine List.forall_mem_append.mpr ⟨?_, ?_⟩
  · intro c hc
    exact (header.mem_chars c hc).1
  · exact List.forall_mem_cons.mpr ⟨by decide, h⟩

end DataHeader

/-- Nothing in Base64 ends an address. -/
theorem isAddressChar_encode (bytes : List UInt8) :
    ∀ c ∈ Text.Base64.encode bytes, isAddressChar c = true := by
  have hsymbol : ∀ digit : Fin 64, isAddressChar (Text.Base64.symbol digit) = true := by decide
  intro c hc
  rcases Text.Base64.mem_encode hc with rfl | ⟨digit, hdigit, rfl⟩
  · rfl
  · exact hsymbol ⟨digit, hdigit⟩

/-! ### Loading -/

/-- From a data address the text in it is loaded. -/
theorem load_text {address text : String} (haddress : UrlPath.isData address.toList = true)
    (htext : DataUri.decode (address.toList.drop 5) = .ok text) (path : String) :
    load address path = liftM (parseGuarded text) >>= fun map => pure ⟨map, address, path⟩ := by
  rw [load, if_pos haddress, htext]
  rfl

/-- A data address leads to the map whose text it holds, and no file is read. -/
theorem load_data {address text : String} {m : RawMap}
    (haddress : UrlPath.isData address.toList = true)
    (htext : DataUri.decode (address.toList.drop 5) = .ok text)
    (hmap : parseGuarded text = .ok m) (path : String) :
    load address path = pure ⟨m, address, path⟩ := by
  rw [load_text haddress htext, hmap]
  rfl

/-- From an address whose payload is read as the text of a map the map is loaded. -/
theorem DataHeader.load_address (header : DataHeader) {m : RawMap} {payload : List Char}
    (h : DataUri.payload (header.parameters.contains "base64".toList) payload
      = .ok (Text.Utf8.encode m.text.toList)) (path : String) :
    load (String.ofList (header.address payload)) path
      = pure ⟨m, String.ofList (header.address payload), path⟩ := by
  have htext : DataUri.decode (header.chars ++ ',' :: payload) = .ok m.text := by
    rw [header.decode_chars, h, Except.bind, DataUri.textOf, Text.Utf8.decode_encode]
    exact congrArg Except.ok String.ofList_toList
  refine load_data ?_ ?_ (parseGuarded_text m) path
  · rw [String.toList_ofList]
    rfl
  · rw [String.toList_ofList]
    exact htext

theorem run_fileText {path text : String} {reader : Reader} (h : reader path = .ok text) :
    (fileText path).run.run reader = (.ok text, [path]) := by
  have hasked : (liftM (Reading.file path) : ExceptT MapError Reading _).run.run reader
      = (.ok (.ok text), [path]) := by
    rw [← h]
    rfl
  exact Reading.run_bind_of_ok hasked _

/-- An address that is not absolute leads to the map that the file at its path holds. -/
theorem load_file {address path text : String} {m : RawMap} {reader : Reader}
    (haddress : UrlPath.isAbsolute address = false)
    (hread : reader (UrlPath.join (UrlPath.directory path) address) = .ok text)
    (hmap : parseGuarded text = .ok m) :
    (load address path).run.run reader
      = (.ok ⟨m, address, UrlPath.join (UrlPath.directory path) address⟩,
          [UrlPath.join (UrlPath.directory path) address]) := by
  have hdata : ¬ UrlPath.isData address.toList = true := by
    rw [UrlPath.isAbsolute, UrlPath.isAbsoluteChars, Bool.or_eq_false_iff] at haddress
    exact Bool.eq_false_iff.mp haddress.1
  rw [load, if_neg hdata, if_neg (Bool.eq_false_iff.mp haddress)]
  refine (Reading.run_bind_of_ok (run_fileText hread) _).trans ?_
  rw [hmap]
  rfl

/-! ### Links -/

/-- A text without an annotation links to nothing. -/
theorem linkedMap?_of_none {code : String} (h : LinkComment.address? code = none) (path : String) :
    linkedMap? code path = pure none := by
  rw [linkedMap?, h]

/-- A text links to what is loaded from the address of its annotation. -/
theorem run_linkedMap? {code address path : String} {linked : LinkedMap} {reader : Reader}
    {asked : List String} (haddress : LinkComment.address? code = some address)
    (hload : (load address path).run.run reader = (.ok linked, asked)) :
    (linkedMap? code path).run.run reader = (.ok (some linked), asked) := by
  have hrun := Reading.run_bind_of_ok hload fun linked => pure (some linked)
  rw [linkedMap?, haddress]
  refine (congrArg (fun x => Reading.run reader (ExceptT.run x)) (map_eq_pure_bind _ _)).trans ?_
  rw [hrun]
  exact congrArg (Prod.mk _) (List.append_nil asked)

end StylePrint.SourceMap
