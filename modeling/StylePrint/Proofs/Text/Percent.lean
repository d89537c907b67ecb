import StylePrint.Json.Printer
import StylePrint.Text.Percent
import StylePrint.Proofs.Text.Utf8
/-!
Percent escapes. Read from left to right, a percent sign begins an escape and any other character
stands for its own bytes, so a text spells bytes or breaks off at a percent sign that no name of a
byte follows (`Percent.Spells`, `Percent.BreaksAt`). Decoding gives exactly the bytes that are
spelled (`Percent.decode_eq_ok_iff`), or the byte offset of the first escape that is not well formed
(`Percent.decode_eq_error_iff`).

A text may be written with some of its characters escaped, each byte of their UTF-8 form as two
hexadecimal digits in either case, and the others left raw (`Percent.Escaping`). Whatever the
choice, the bytes of the text are read back (`Percent.decode_escaping`); a writer that escapes what
it must is `Percent.escape`.
-/

namespace StylePrint.Text.Percent

/-! ### Hexadecimal digits -/

/-- A hexadecimal digit of a number, in either case. -/
def IsHexDigit (v : Nat) (c : Char) : Prop :=
  c = Json.hexDigit v ∨ c = (Json.hexDigit v).toUpper

/-- What holds of the digits of a base in either case holds of each of them. -/
theorem IsHexDigit.of_forall {base : Nat} {p : Nat → Char → Prop}
    (hp : ∀ v < base, p v (Json.hexDigit v) ∧ p v (Json.hexDigit v).toUpper) {v : Nat}
    (hv : v < base) {c : Char} (h : IsHexDigit v c) : p v c := by
  rcases h with rfl | rfl
  · exact (hp v hv).1
  · exact (hp v hv).2

theorem hexDigit?_of_isHexDigit {v : Nat} (hv : v < 16) {c : Char} (h : IsHexDigit v c) :
    hexDigit? c = some v :=
  h.of_forall (p := fun v c => hexDigit? c = some v) (by decide) hv

theorem hexDigit?_eq_some_iff {c : Char} {v : Nat} :
    hexDigit? c = some v ↔ v < 16 ∧ IsHexDigit v c := by
  constructor
  · intro h
    have hchar : Char.ofNat c.toNat = c := Char.ofNat_toNat c
    have hupper : ∀ v < 16, 10 ≤ v → (Json.hexDigit v).toUpper = Char.ofNat (55 + v) := by decide
    simp only [hexDigit?] at h
    split at h
    · rename_i hrange
      obtain rfl := Option.some.inj h
      have hvalue : 48 + (c.toNat - 48) = c.toNat := by omega
      exact ⟨by omega, .inl (by rw [Json.hexDigit, if_pos (by omega), hvalue, hchar])⟩
    · split at h
      · rename_i hrange
        obtain rfl := Option.some.inj h
        have hvalue : 87 + (c.toNat - 87) = c.toNat := by omega
        exact ⟨by omega, .inl (by rw [Json.hexDigit, if_neg (by omega), hvalue, hchar])⟩
      · split at h
        · rename_i hrange
          obtain rfl := Option.some.inj h
          have hvalue : 55 + (c.toNat - 55) = c.toNat := by omega
          exact ⟨by omega, .inr (by rw [hupper _ (by omega) (by omega), hvalue, hchar])⟩
        · cases h
  · rintro ⟨hv, h⟩
    exact hexDigit?_of_isHexDigit hv h

theorem not_isHexDigit_plus {v : Nat} (hv : v < 16) : ¬ IsHexDigit v '+' := by
  intro h
  cases hexDigit?_of_isHexDigit hv h

/-! ### Names of bytes -/

/-- Whether two characters are the digits of a byte. -/
def TwoDigits (high low : Char) (b : UInt8) : Prop :=
  IsHexDigit (b.toNat / 16) high ∧ IsHexDigit (b.toNat % 16) low

/-- Whether two characters are a plus sign and the only digit of a byte. -/
def SignedDigit (high low : Char) (b : UInt8) : Prop :=
  high = '+' ∧ b.toNat < 16 ∧ IsHexDigit b.toNat low

/-- Whether two characters are taken for the name of a byte. -/
def NamesByte (high low : Char) (b : UInt8) : Prop :=
  TwoDigits high low b ∨ SignedDigit high low b

/-- Two digits name the byte they are the digits of. -/
theorem byte?_digits {b : UInt8} {high low : Char} (hhigh : IsHexDigit (b.toNat / 16) high)
    (hlow : IsHexDigit (b.toNat % 16) low) : byte? high low = some b := by
  have hb := b.toNat_lt
  have hplus : high ≠ '+' := by
    rintro rfl
    exact not_isHexDigit_plus (by omega) hhigh
  have hhigh := hexDigit?_of_isHexDigit (by omega) hhigh
  have hlow := hexDigit?_of_isHexDigit (by omega) hlow
  have hvalue : b.toNat / 16 * 16 + b.toNat % 16 = b.toNat := by omega
  simp only [byte?, hhigh, hlow, hplus, hvalue, if_false, Option.bind_eq_bind, Option.bind_some,
    Option.pure_def, UInt8.ofNat_toNat]

/-- **Exactly the names of a byte are read as that byte.** -/
theorem byte?_eq_some_iff {high low : Char} {b : UInt8} :
    byte? high low = some b ↔ NamesByte high low b := by
  constructor
  · intro h
    simp only [byte?, Option.bind_eq_bind, Option.bind_eq_some_iff, Option.pure_def] at h
    obtain ⟨l, hlow, h⟩ := h
    obtain ⟨hl, hlow⟩ := hexDigit?_eq_some_iff.mp hlow
    split at h
    · rename_i hplus
      obtain rfl := Option.some.inj h
      have hvalue := Utf8.toNat_byte (n := l) (by omega)
      exact .inr ⟨hplus, by omega, by rwa [hvalue]⟩
    · obtain ⟨v, hhigh, h⟩ := Option.bind_eq_some_iff.mp h
      obtain ⟨hv, hhigh⟩ := hexDigit?_eq_some_iff.mp hhigh
      obtain rfl := Option.some.inj h
      have hvalue := Utf8.toNat_byte (n := v * 16 + l) (by omega)
      have hfirst : (v * 16 + l) / 16 = v := by omega
      have hlast : (v * 16 + l) % 16 = l := by omega
      exact .inl ⟨by rwa [hvalue, hfirst], by rwa [hvalue, hlast]⟩
  · rintro (⟨hhigh, hlow⟩ | ⟨rfl, hb, hlow⟩)
    · exact byte?_digits hhigh hlow
    · rw [byte?, hexDigit?_of_isHexDigit hb hlow, Option.bind_eq_bind, Option.bind_some, if_pos rfl,
        UInt8.ofNat_toNat]
      rfl

/-! ### Texts with escapes -/

/-- Whether a text spells bytes when it is read from left to right: a percent sign begins an escape
of a byte, and any other character stands for its own bytes. -/
inductive Spells (names : Char → Char → UInt8 → Prop) : List Char → List UInt8 → Prop where
  | nil : Spells names [] []
  | plain {c : Char} {cs : List Char} {bytes : List UInt8} (hpercent : c ≠ '%')
      (hrest : Spells names cs bytes) : Spells names (c :: cs) (String.utf8EncodeChar c ++ bytes)
  | escape {high low : Char} {b : UInt8} {cs : List Char} {bytes : List UInt8}
      (hname : names high low b) (hrest : Spells names cs bytes) :
      Spells names ('%' :: high :: low :: cs) (b :: bytes)

/-- Whether the first escape of a text that is not well formed begins at a byte offset: what stands
before it can be read, and no name of a byte follows its percent sign. -/
def BreaksAt (names : Char → Char → UInt8 → Prop) (cs : List Char) (index : Nat) : Prop :=
  ∃ before behind bytes, cs = before ++ '%' :: behind ∧ Spells names before bytes ∧
    index = (String.ofList before).utf8ByteSize ∧
    ∀ high low b rest, behind = high :: low :: rest → ¬ names high low b

section Decode

variable {cs tail : List Char} {bytes : List UInt8} {index : Nat}

/-- A character that is no percent sign stands for its bytes. -/
theorem decodeFrom_plain {c : Char} (h : c ≠ '%') (index : Nat) (rest : List Char) :
    decodeFrom index (c :: rest)
      = (decodeFrom (index + c.utf8Size) rest).map (String.utf8EncodeChar c ++ ·) := by
  have hbytes := Utf8.encodeChar_eq c
  rw [decodeFrom.eq_3 index c rest fun _ _ _ hc _ => h hc, if_neg h, hbytes,
    String.length_utf8EncodeChar]
  rfl

/-- A percent sign and the name of a byte stand for that byte. -/
theorem decodeFrom_escape {high low : Char} {b : UInt8} (h : NamesByte high low b) (index : Nat)
    (rest : List Char) :
    decodeFrom index ('%' :: high :: low :: rest)
      = (decodeFrom (index + 3) rest).map (b :: ·) := by
  rw [decodeFrom, byte?_eq_some_iff.mpr h]
  rfl

/-- A percent sign that no name of a byte follows is refused. -/
theorem decodeFrom_percent {behind : List Char}
    (h : ∀ high low b rest, behind = high :: low :: rest → ¬ NamesByte high low b) (index : Nat) :
    decodeFrom index ('%' :: behind) = .error index := by
  unfold decodeFrom
  split
  · rename_i heq
    cases heq
  · rename_i high low rest heq
    obtain ⟨-, rfl⟩ := List.cons.inj heq
    split
    · rfl
    · rename_i b hbyte
      exact absurd (byte?_eq_some_iff.mp hbyte) (h high low b rest rfl)
  · rename_i heq
    obtain ⟨rfl, -⟩ := List.cons.inj heq
    rw [if_pos rfl]

/-- The characters of a byte's name take one byte each. -/
theorem NamesByte.utf8Size {high low : Char} {b : UInt8} (h : NamesByte high low b) :
    high.utf8Size = 1 ∧ low.utf8Size = 1 := by
  have hdigit : ∀ {v c}, v < 16 → IsHexDigit v c → c.utf8Size = 1 := by
    have hlower : ∀ v < 16, (Json.hexDigit v).utf8Size = 1 := by decide
    have hupper : ∀ v < 16, (Json.hexDigit v).toUpper.utf8Size = 1 := by decide
    rintro v c hv (rfl | rfl)
    · exact hlower v hv
    · exact hupper v hv
  have hb := b.toNat_lt
  rcases h with ⟨hhigh, hlow⟩ | ⟨rfl, hb, hlow⟩
  · exact ⟨hdigit (by omega) hhigh, hdigit (by omega) hlow⟩
  · exact ⟨rfl, hdigit hb hlow⟩

/-- What can be read is read, and reading goes on behind it. -/
theorem decodeFrom_append (h : Spells NamesByte cs bytes) (index : Nat) (tail : List Char) :
    decodeFrom index (cs ++ tail)
      = (decodeFrom (index + (String.ofList cs).utf8ByteSize) tail).map (bytes ++ ·) := by
  induction h generalizing index with
  | nil =>
      have hid : (([] : List UInt8) ++ ·) = id := rfl
      rw [hid, Except.map_id]
      rfl
  | @plain c cs bytes hpercent _ ih =>
      have hsize : (String.ofList (c :: cs)).utf8ByteSize
          = c.utf8Size + (String.ofList cs).utf8ByteSize := by simp
      rw [List.cons_append, decodeFrom_plain hpercent, ih, hsize, Nat.add_assoc, Except.map_map]
      simp only [List.append_assoc]
  | @escape high low b cs bytes hname _ ih =>
      obtain ⟨hhigh, hlow⟩ := hname.utf8Size
      have hsize : (String.ofList ('%' :: high :: low :: cs)).utf8ByteSize
          = 3 + (String.ofList cs).utf8ByteSize := by
        have hpercent : '%'.utf8Size = 1 := rfl
        simp only [String.ofList_cons, String.utf8ByteSize_append, String.utf8ByteSize_singleton,
          hpercent, hhigh, hlow]
        omega
      rw [List.cons_append, List.cons_append, List.cons_append, decodeFrom_escape hname, ih, hsize,
        Nat.add_assoc, Except.map_map]
      rfl

/-- Every text spells bytes or breaks off. -/
theorem spells_or_breaksAt (names : Char → Char → UInt8 → Prop) (cs : List Char) :
    (∃ bytes, Spells names cs bytes) ∨ ∃ index, BreaksAt names cs index := by
  match cs with
  | [] => exact .inl ⟨[], .nil⟩
  | c :: cs =>
      by_cases hpercent : c = '%'
      · subst hpercent
        by_cases hname : ∃ high low b rest, cs = high :: low :: rest ∧ names high low b
        · obtain ⟨high, low, b, rest, rfl, hname⟩ := hname
          rcases spells_or_breaksAt names rest with
            ⟨bytes, hrest⟩ | ⟨-, before, behind, bytes, rfl, hbefore, -, hbehind⟩
          · exact .inl ⟨_, .escape hname hrest⟩
          · exact .inr ⟨_, '%' :: high :: low :: before, behind, _, rfl, .escape hname hbefore, rfl,
              hbehind⟩
        · refine .inr ⟨0, [], cs, [], rfl, .nil, rfl, ?_⟩
          intro high low b rest hcs hnames
          exact hname ⟨high, low, b, rest, hcs, hnames⟩
      · rcases spells_or_breaksAt names cs with
          ⟨bytes, hrest⟩ | ⟨-, before, behind, bytes, rfl, hbefore, -, hbehind⟩
        · exact .inl ⟨_, .plain hpercent hrest⟩
        · exact .inr ⟨_, c :: before, behind, _, rfl, .plain hpercent hbefore, rfl, hbehind⟩
termination_by cs.length

theorem decode_of_spells (h : Spells NamesByte cs bytes) : decode cs = .ok bytes := by
  have hread := decodeFrom_append h 0 []
  rw [List.append_nil] at hread
  rw [decode, hread]
  exact congrArg Except.ok (List.append_nil bytes)

theorem decode_of_breaksAt (h : BreaksAt NamesByte cs index) : decode cs = .error index := by
  obtain ⟨before, behind, bytes, rfl, hbefore, rfl, hbehind⟩ := h
  rw [decode, decodeFrom_append hbefore, decodeFrom_percent hbehind, Nat.zero_add]
  rfl

/-- **Decoding gives exactly the bytes that a text spells.** -/
theorem decode_eq_ok_iff : decode cs = .ok bytes ↔ Spells NamesByte cs bytes := by
  constructor
  · intro h
    rcases spells_or_breaksAt NamesByte cs with ⟨spelled, hspells⟩ | ⟨index, hbreaks⟩
    · obtain rfl := Except.ok.inj ((decode_of_spells hspells).symm.trans h)
      exact hspells
    · cases (decode_of_breaksAt hbreaks).symm.trans h
  · exact decode_of_spells

/-- **Decoding fails exactly at the first escape that is not well formed.** -/
theorem decode_eq_error_iff : decode cs = .error index ↔ BreaksAt NamesByte cs index := by
  constructor
  · intro h
    rcases spells_or_breaksAt NamesByte cs with ⟨bytes, hspells⟩ | ⟨offset, hbreaks⟩
    · cases (decode_of_spells hspells).symm.trans h
    · obtain rfl := Except.error.inj ((decode_of_breaksAt hbreaks).symm.trans h)
      exact hbreaks
  · exact decode_of_breaksAt

end Decode

/-! ### Escaped bytes -/

/-- Whether characters spell bytes by escapes alone. -/
inductive EscapedBytes : List UInt8 → List Char → Prop where
  | nil : EscapedBytes [] []
  | cons {b : UInt8} {bytes : List UInt8} {high low : Char} {cs : List Char}
      (hhigh : IsHexDigit (b.toNat / 16) high) (hlow : IsHexDigit (b.toNat % 16) low)
      (hrest : EscapedBytes bytes cs) : EscapedBytes (b :: bytes) ('%' :: high :: low :: cs)

/-- Escaped bytes are spelled, whatever is spelled behind them. -/
theorem EscapedBytes.spells {bytes more : List UInt8} {cs rest : List Char}
    (h : EscapedBytes bytes cs) (hrest : Spells NamesByte rest more) :
    Spells NamesByte (cs ++ rest) (bytes ++ more) := by
  induction h with
  | nil => exact hrest
  | cons hhigh hlow _ ih => exact .escape (.inl ⟨hhigh, hlow⟩) ih

/-! ### Escaped texts -/

/-- Whether characters spell a text with some of its characters escaped. Those left raw are of a
given kind and no percent sign. -/
inductive Escaping (raw : Char → Bool) : List Char → List Char → Prop where
  | nil : Escaping raw [] []
  | plain {c : Char} {cs written : List Char} (hraw : raw c = true) (hpercent : c ≠ '%')
      (hrest : Escaping raw cs written) : Escaping raw (c :: cs) (c :: written)
  | escaped {c : Char} {cs escape written : List Char}
      (hescape : EscapedBytes (Utf8.encodeChar c) escape) (hrest : Escaping raw cs written) :
      Escaping raw (c :: cs) (escape ++ written)

variable {raw : Char → Bool} {cs written : List Char}

/-- However a text is written, it spells its bytes. -/
theorem Escaping.spells (h : Escaping raw cs written) :
    Spells NamesByte written (Utf8.encode cs) := by
  induction h with
  | nil => exact .nil
  | @plain c _ _ hraw hpercent _ ih =>
      rw [Utf8.encode_cons, Utf8.encodeChar_eq c]
      exact .plain hpercent ih
  | escaped hescape _ ih =>
      rw [Utf8.encode_cons]
      exact hescape.spells ih

/-- **A text is read back from its escapes**, however they were chosen. -/
theorem decode_escaping (h : Escaping raw cs written) : decode written = .ok (Utf8.encode cs) :=
  decode_of_spells h.spells

/-- Escapes hold nothing but percent signs and hexadecimal digits. -/
theorem EscapedBytes.mem {bytes : List UInt8} (h : EscapedBytes bytes cs) :
    ∀ c ∈ cs, c = '%' ∨ ∃ v < 16, IsHexDigit v c := by
  induction h with
  | nil => exact nofun
  | @cons b _ _ _ _ hhigh hlow _ ih =>
      have hb := b.toNat_lt
      intro c hc
      rcases List.mem_cons.mp hc with rfl | hc
      · exact Or.inl rfl
      · rcases List.mem_cons.mp hc with rfl | hc
        · exact Or.inr ⟨_, by omega, hhigh⟩
        · rcases List.mem_cons.mp hc with rfl | hc
          · exact Or.inr ⟨_, by omega, hlow⟩
          · exact ih c hc

/-- What is written is raw or part of an escape. -/
theorem Escaping.mem (h : Escaping raw cs written) :
    ∀ c ∈ written, raw c = true ∨ c = '%' ∨ ∃ v < 16, IsHexDigit v c := by
  induction h with
  | nil => exact nofun
  | plain hraw _ _ ih => exact List.forall_mem_cons.mpr ⟨Or.inl hraw, ih⟩
  | escaped hescape _ ih =>
      exact List.forall_mem_append.mpr ⟨fun c hc => Or.inr (hescape.mem c hc), ih⟩

/-! ### A writer -/

/-- The escapes of bytes, the first digit of each in lower case and the second in upper case. -/
def escapeBytes : List UInt8 → List Char
  | [] => []
  | b :: bytes =>
    '%' :: Json.hexDigit (b.toNat / 16) :: (Json.hexDigit (b.toNat % 16)).toUpper ::
      escapeBytes bytes

/-- A text with all characters escaped but those of a kind. -/
def escape (raw : Char → Bool) : List Char → List Char
  | [] => []
  | c :: cs =>
    if raw c ∧ c ≠ '%' then c :: escape raw cs
    else escapeBytes (Utf8.encodeChar c) ++ escape raw cs

theorem escapedBytes_escapeBytes (bytes : List UInt8) :
    EscapedBytes bytes (escapeBytes bytes) := by
  induction bytes with
  | nil => exact .nil
  | cons b bytes ih => exact .cons (.inl rfl) (.inr rfl) ih

/-- Every text can be written, whatever is to be left raw. -/
theorem escaping_escape (raw : Char → Bool) (cs : List Char) :
    Escaping raw cs (escape raw cs) := by
  induction cs with
  | nil => exact .nil
  | cons c cs ih =>
      rw [escape]
      split
      · rename_i hraw
        exact .plain hraw.1 hraw.2 ih
      · exact .escaped (escapedBytes_escapeBytes _) ih

end StylePrint.Text.Percent
