import StylePrint.Proofs.SourceMap.Linked
import StylePrint.Proofs.Text.Percent
/-!
The text inside a data address with percent escapes. It is there when the escapes are well formed
and their bytes are valid UTF-8, and then it is the text with these bytes
(`DataUri.escapes_are_read_exactly`). A plus sign is taken for the first digit of an escape
(`DataUri.plus_is_read_as_digit`).
-/

namespace StylePrint.SourceMap.DataUri

open Text (Utf8.decode_eq_ok_iff Utf8.toByteArray_encode)
open Text.Percent (Spells BreaksAt NamesByte TwoDigits spells_or_breaksAt decode_eq_ok_iff
  decode_eq_error_iff)

section Text

variable {bytes : List UInt8}

/-- Bytes are read as the text that has them. -/
theorem textOf_eq_ok_iff {text : String} :
    textOf bytes = .ok text ↔ text.toByteArray = bytes.toByteArray := by
  have hbytes : ∀ cs, Text.Utf8.decode bytes = .ok cs ↔
      (String.ofList cs).toByteArray = bytes.toByteArray := by
    intro cs
    rw [Utf8.decode_eq_ok_iff, ← Utf8.toByteArray_encode, List.toByteArray_inj]
  rw [textOf]
  cases hdecode : Text.Utf8.decode bytes with
  | ok cs =>
      rw [← (hbytes cs).mp hdecode, String.toByteArray_inj]
      exact ⟨fun h => (Except.ok.inj h).symm, fun h => congrArg Except.ok h.symm⟩
  | error fault =>
      constructor
      · intro h
        cases h
      · intro h
        have htext := (hbytes text.toList).mpr (by rw [String.ofList_toList, h])
        cases hdecode.symm.trans htext

/-- The bytes that some text has are valid UTF-8. -/
theorem exists_toByteArray_iff :
    (∃ text : String, text.toByteArray = bytes.toByteArray) ↔ bytes.toByteArray.IsValidUTF8 := by
  constructor
  · rintro ⟨text, h⟩
    rw [← h]
    exact text.isValidUTF8
  · exact fun h => ⟨String.ofByteArray _ h, rfl⟩

theorem eq_of_textOf_error {e : MapError} (h : textOf bytes = .error e) :
    ∃ fault, e = .dataUri (.utf8 fault) := by
  rw [textOf] at h
  split at h
  · cases h
  · rename_i fault hdecode
    exact ⟨fault, (Except.error.inj h).symm⟩

end Text

section Plain

variable (header : DataHeader) (hplain : "base64".toList ∉ header.parameters) {cs : List Char}
  {bytes : List UInt8} {index : Nat}

include hplain

theorem decode_of_spells (h : Spells NamesByte cs bytes) :
    decode (header.chars ++ ',' :: cs) = textOf bytes := by
  rw [header.decode_chars, header.payload_plain hplain, decode_eq_ok_iff.mpr h]
  rfl

theorem decode_of_breaksAt (h : BreaksAt NamesByte cs index) :
    decode (header.chars ++ ',' :: cs) = .error (.dataUri (.percent index)) := by
  rw [header.decode_chars, header.payload_plain hplain, decode_eq_error_iff.mpr h]
  rfl

/-- The text that is found has the bytes that are spelled. -/
theorem decode_plain_eq_ok_iff {text : String} :
    decode (header.chars ++ ',' :: cs) = .ok text ↔
      ∃ bytes, Spells NamesByte cs bytes ∧ text.toByteArray = bytes.toByteArray := by
  constructor
  · intro h
    rcases spells_or_breaksAt NamesByte cs with ⟨bytes, hspells⟩ | ⟨index, hbreaks⟩
    · rw [decode_of_spells header hplain hspells] at h
      exact ⟨bytes, hspells, textOf_eq_ok_iff.mp h⟩
    · cases (decode_of_breaksAt header hplain hbreaks).symm.trans h
  · rintro ⟨bytes, hspells, htext⟩
    rw [decode_of_spells header hplain hspells, textOf_eq_ok_iff.mpr htext]

/-- What is refused is refused for an escape that is not well formed, the first one, or for bytes
that are no text. -/
theorem fault_of_decode_plain {e : MapError}
    (h : decode (header.chars ++ ',' :: cs) = .error e) :
    (∃ index, BreaksAt NamesByte cs index ∧ e = .dataUri (.percent index)) ∨
      ∃ fault, e = .dataUri (.utf8 fault) := by
  rcases spells_or_breaksAt NamesByte cs with ⟨bytes, hspells⟩ | ⟨index, hbreaks⟩
  · rw [decode_of_spells header hplain hspells] at h
    exact .inr (eq_of_textOf_error h)
  · exact .inl ⟨index, hbreaks,
      (Except.error.inj ((decode_of_breaksAt header hplain hbreaks).symm.trans h)).symm⟩

/-- **Escapes are read exactly when they are well formed.** Behind a header without Base64 the text
is found when every percent sign that begins an escape is followed by the name of a byte, and all
bytes together are valid UTF-8; it is the text with these bytes. Otherwise the address is refused as
a data address, at the byte offset of the first escape that is not well formed when there is one. -/
theorem escapes_are_read_exactly (cs : List Char) :
    ((∃ text, decode (header.chars ++ ',' :: cs) = .ok text) ↔
        ∃ bytes, Spells NamesByte cs bytes ∧ bytes.toByteArray.IsValidUTF8) ∧
      (∀ text, decode (header.chars ++ ',' :: cs) = .ok text ↔
        ∃ bytes, Spells NamesByte cs bytes ∧ text.toByteArray = bytes.toByteArray) ∧
      (∀ index, decode (header.chars ++ ',' :: cs) = .error (.dataUri (.percent index)) ↔
        BreaksAt NamesByte cs index) ∧
      ∀ e, decode (header.chars ++ ',' :: cs) = .error e → ∃ fault, e = .dataUri fault := by
  refine ⟨?_, fun text => decode_plain_eq_ok_iff header hplain, fun index => ⟨?_, ?_⟩, ?_⟩
  · simp only [decode_plain_eq_ok_iff header hplain, ← exists_toByteArray_iff]
    constructor
    · rintro ⟨text, bytes, hspells, htext⟩
      exact ⟨bytes, hspells, text, htext⟩
    · rintro ⟨bytes, hspells, text, htext⟩
      exact ⟨text, bytes, hspells, htext⟩
  · intro h
    rcases fault_of_decode_plain header hplain h with ⟨other, hbreaks, ⟨⟩⟩ | ⟨fault, ⟨⟩⟩
    exact hbreaks
  · exact decode_of_breaksAt header hplain
  · intro e h
    rcases fault_of_decode_plain header hplain h with ⟨index, -, rfl⟩ | ⟨fault, rfl⟩
    · exact ⟨_, rfl⟩
    · exact ⟨_, rfl⟩

end Plain

/-- A character of two bytes, the same one escaped in both cases, and a tab behind a plus sign: the
escape that is cut short begins at the eleventh byte. -/
theorem escapes_are_read_exactly_of_cut :
    let header : DataHeader :=
      ⟨"application/json".toList, ["charset=utf-8".toList], rfl, by decide⟩
    let cs := ['é', '%', 'c', '3', '%', 'A', '9', '%', '+', '9', '%', '4']
    "base64".toList ∉ header.parameters ∧
      decode (header.chars ++ ',' :: cs) = .error (.dataUri (.percent 11)) := by
  intro header cs
  have hplain : "base64".toList ∉ header.parameters := by decide
  have hspells : Spells NamesByte ['é', '%', 'c', '3', '%', 'A', '9', '%', '+', '9']
      (String.utf8EncodeChar 'é' ++ [0xC3, 0xA9, 0x09]) :=
    .plain (by decide) (.escape (.inl ⟨.inl rfl, .inl rfl⟩) (.escape (.inl ⟨.inr rfl, .inl rfl⟩)
      (.escape (.inr ⟨rfl, by decide, .inl rfl⟩) .nil)))
  have hbreaks : BreaksAt NamesByte cs 11 :=
    ⟨_, ['4'], _, rfl, hspells, by decide +kernel, nofun⟩
  exact ⟨hplain, ((escapes_are_read_exactly header hplain cs).2.2.1 11).mpr hbreaks⟩

/-- A plus sign is read as the first digit of an escape, which it is not: read with two digits, the
text breaks off at its first byte. -/
theorem plus_is_read_as_digit :
    decode [',', '%', '+', '9'] = .ok "\t" ∧
      (∀ bytes, ¬ Spells TwoDigits ['%', '+', '9'] bytes) ∧
      BreaksAt TwoDigits ['%', '+', '9'] 0 := by
  have hplus : ∀ {low b}, ¬ TwoDigits '+' low b := by
    intro low b hdigits
    have hb := b.toNat_lt
    exact Text.Percent.not_isHexDigit_plus (by omega) hdigits.1
  refine ⟨rfl, ?_, [], ['+', '9'], [], rfl, .nil, rfl, ?_⟩
  · intro bytes hspells
    cases hspells with
    | plain hpercent hrest => exact hpercent rfl
    | escape hname hrest => exact hplus hname
  · rintro high low b rest ⟨⟩
    exact hplus

end StylePrint.SourceMap.DataUri
