import Mathlib.Tactic.SplitIfs
import StylePrint.Text.Utf8
import StylePrint.Proofs.Outcome
/-!
UTF-8, written and read back. The bytes of a character are read as that character, whatever follows
them (`Utf8.front_encodeChar`), so a text is read back from its bytes (`Utf8.decode_encode`). A
character that is read stands there with its bytes (`Utf8.front_eq_char`), so nothing but the bytes
of texts is read (`Utf8.decode_eq_ok_iff`).
-/

namespace StylePrint.Text.Utf8

/-! ### Single bytes -/

theorem toNat_byte {n : Nat} (h : n < 256) : (UInt8.ofNat n).toNat = n := by
  rw [UInt8.toNat_ofNat']
  exact Nat.mod_eq_of_lt h

/-- A byte that continues a sequence adds six bits. -/
theorem gather_succ (taken bits left : Nat) {low : Nat} (h : low < 0x40) (rest : List UInt8) :
    gather taken bits (left + 1) (UInt8.ofNat (0x80 + low) :: rest)
      = gather (taken + 1) (bits * 0x40 + low) left rest := by
  have hb : (UInt8.ofNat (0x80 + low)).toNat = 0x80 + low := toNat_byte (by omega)
  have hcontinues : isContinuation (UInt8.ofNat (0x80 + low)) = true := by
    simp only [isContinuation, hb, Bool.and_eq_true, decide_eq_true_eq]
    omega
  rw [gather, if_pos hcontinues, hb, Nat.add_sub_cancel_left]

/-- A leading byte and a second one in its range begin a longer sequence. -/
theorem front_lead {first low : Nat} {lead : Lead} (hfirst : 0x80 ≤ first ∧ first < 256)
    (hlead : Lead.ofByte? (UInt8.ofNat first) = some lead) (hlow : low < 0x40)
    (hsecond : lead.secondLow ≤ 0x80 + low ∧ 0x80 + low ≤ lead.secondHigh) (rest : List UInt8) :
    front (UInt8.ofNat first) (UInt8.ofNat (0x80 + low) :: rest)
      = gather 2 (lead.bits * 0x40 + low) (lead.following - 1) rest := by
  have hb : (UInt8.ofNat (0x80 + low)).toNat = 0x80 + low := toNat_byte (by omega)
  rw [front, toNat_byte hfirst.2, if_neg (by omega), hlead]
  simp only [hb]
  rw [if_pos hsecond, Nat.add_sub_cancel_left]

/-! ### Leading bytes -/

/-- The leading byte of two admits any second byte. -/
theorem lead_two {v : Nat} (h : 0x80 ≤ v ∧ v < 0x800) :
    ∃ low high, Lead.ofByte? (UInt8.ofNat (0xC0 + v / 0x40)) = some ⟨1, v / 0x40, low, high⟩ ∧
      low ≤ 0x80 + v % 0x40 ∧ 0x80 + v % 0x40 ≤ high := by
  simp only [Lead.ofByte?, toNat_byte (n := 0xC0 + v / 0x40) (by omega)]
  rw [if_pos (by omega), Nat.add_sub_cancel_left]
  exact ⟨_, _, rfl, by omega, by omega⟩

/-- The leading byte of three admits the second byte: the code point is not too small and no
surrogate. -/
theorem lead_three {v : Nat} (h : 0x800 ≤ v ∧ v < 0x10000) (hv : v < 0xD800 ∨ 0xDFFF < v) :
    ∃ low high, Lead.ofByte? (UInt8.ofNat (0xE0 + v / 0x1000)) = some ⟨2, v / 0x1000, low, high⟩ ∧
      low ≤ 0x80 + v / 0x40 % 0x40 ∧ 0x80 + v / 0x40 % 0x40 ≤ high := by
  simp only [Lead.ofByte?, toNat_byte (n := 0xE0 + v / 0x1000) (by omega)]
  rw [if_neg (by omega)]
  by_cases hzero : v / 0x1000 = 0
  · rw [if_pos (by omega), hzero]
    exact ⟨_, _, rfl, by omega, by omega⟩
  · rw [if_neg (by omega)]
    by_cases hsurrogate : v / 0x1000 = 0xD
    · rw [if_pos (by omega), hsurrogate]
      exact ⟨_, _, rfl, by omega, by omega⟩
    · rw [if_neg (by omega), if_pos (by omega), Nat.add_sub_cancel_left]
      exact ⟨_, _, rfl, by omega, by omega⟩

/-- The leading byte of four admits the second byte: the code point is neither too small nor too
great. -/
theorem lead_four {v : Nat} (h : 0x10000 ≤ v ∧ v < 0x110000) :
    ∃ low high,
      Lead.ofByte? (UInt8.ofNat (0xF0 + v / 0x40000)) = some ⟨3, v / 0x40000, low, high⟩ ∧
      low ≤ 0x80 + v / 0x1000 % 0x40 ∧ 0x80 + v / 0x1000 % 0x40 ≤ high := by
  simp only [Lead.ofByte?, toNat_byte (n := 0xF0 + v / 0x40000) (by omega)]
  rw [if_neg (by omega), if_neg (by omega), if_neg (by omega), if_neg (by omega)]
  by_cases hzero : v / 0x40000 = 0
  · rw [if_pos (by omega), hzero]
    exact ⟨_, _, rfl, by omega, by omega⟩
  · rw [if_neg (by omega)]
    by_cases hfour : v / 0x40000 = 4
    · rw [if_pos (by omega), hfour]
      exact ⟨_, _, rfl, by omega, by omega⟩
    · rw [if_neg (by omega), if_pos (by omega), Nat.add_sub_cancel_left]
      exact ⟨_, _, rfl, by omega, by omega⟩

/-! ### Characters -/

/-- The bytes of a character are read as that character, whatever follows them. -/
theorem front_encodeChar (c : Char) (rest : List UInt8) :
    ∃ b more, encodeChar c = b :: more ∧ front b (more ++ rest) = .char c (more.length + 1) := by
  have hvalid : c.toNat < 0xD800 ∨ 0xDFFF < c.toNat ∧ c.toNat < 0x110000 := c.valid
  have hchar : Char.ofNat c.toNat = c := Char.ofNat_toNat c
  simp only [encodeChar]
  generalize c.toNat = v at hvalid hchar ⊢
  split
  · rename_i hone
    refine ⟨_, _, rfl, ?_⟩
    rw [front, toNat_byte (by omega), if_pos hone, hchar]
    rfl
  · split
    · obtain ⟨low, high, hlead, hsecond⟩ := lead_two (v := v) (by omega)
      refine ⟨_, _, rfl, ?_⟩
      have hbits : v / 0x40 * 0x40 + v % 0x40 = v := by omega
      rw [List.cons_append, front_lead (by omega) hlead (by omega) hsecond]
      simp only [Nat.sub_self]
      rw [hbits, gather, hchar]
      rfl
    · split
      · obtain ⟨low, high, hlead, hsecond⟩ := lead_three (v := v) (by omega) (by omega)
        refine ⟨_, _, rfl, ?_⟩
        have hbits : (v / 0x1000 * 0x40 + v / 0x40 % 0x40) * 0x40 + v % 0x40 = v := by omega
        rw [List.cons_append, front_lead (by omega) hlead (by omega) hsecond]
        simp only [List.cons_append, Nat.add_one_sub_one]
        rw [gather_succ _ _ 0 (by omega), hbits, gather, hchar]
        rfl
      · obtain ⟨low, high, hlead, hsecond⟩ := lead_four (v := v) (by omega)
        refine ⟨_, _, rfl, ?_⟩
        have hbits : ((v / 0x40000 * 0x40 + v / 0x1000 % 0x40) * 0x40 + v / 0x40 % 0x40) * 0x40
            + v % 0x40 = v := by omega
        rw [List.cons_append, front_lead (by omega) hlead (by omega) hsecond]
        simp only [List.cons_append, Nat.add_one_sub_one]
        rw [gather_succ _ _ 1 (by omega), gather_succ _ _ 0 (by omega), hbits, gather, hchar]
        rfl

/-! ### Texts -/

/-- The bytes to be passed over are passed over. -/
theorem decodeFrom_skip (index : Nat) (passed rest : List UInt8) :
    decodeFrom index passed.length (passed ++ rest)
      = decodeFrom (index + passed.length) 0 rest := by
  induction passed generalizing index with
  | nil => rfl
  | cons b passed ih =>
      rw [List.cons_append, List.length_cons, decodeFrom, ih]
      congr 1
      omega

/-- A text is read back from its bytes, wherever they begin. -/
theorem decodeFrom_encode (index : Nat) (cs : List Char) :
    decodeFrom index 0 (encode cs) = .ok cs := by
  induction cs generalizing index with
  | nil => rfl
  | cons c cs ih =>
      obtain ⟨b, more, hbytes, hfront⟩ := front_encodeChar c (encode cs)
      rw [encode_cons, hbytes, List.cons_append, decodeFrom]
      simp only [hfront, Nat.add_sub_cancel, decodeFrom_skip, ih]
      rfl

/-- **A text is read back from its bytes.** -/
theorem decode_encode (cs : List Char) : decode (encode cs) = .ok cs :=
  decodeFrom_encode 0 cs

/-! ### Bytes that are read -/

theorem toNat_charOfNat {v : Nat} (h : v < 0xD800 ∨ 0xDFFF < v ∧ v < 0x110000) :
    (Char.ofNat v).toNat = v := by
  have hvalid : v.isValidChar := h
  rw [Char.ofNat, dif_pos hvalid]
  rfl

/-- A byte that is taken as continuing a sequence adds six bits. -/
theorem gather_eq_char {taken bits left length : Nat} {rest : List UInt8} {c : Char}
    (h : gather taken bits (left + 1) rest = .char c length) :
    ∃ low more, low < 0x40 ∧ rest = UInt8.ofNat (0x80 + low) :: more ∧
      gather (taken + 1) (bits * 0x40 + low) left more = .char c length := by
  cases rest with
  | nil => cases h
  | cons b more =>
      rw [gather] at h
      split at h
      · rename_i hcontinues
        simp only [isContinuation, Bool.and_eq_true, decide_eq_true_eq] at hcontinues
        have hbyte : 0x80 + (b.toNat - 0x80) = b.toNat := by omega
        refine ⟨b.toNat - 0x80, more, by omega, ?_, h⟩
        rw [hbyte, UInt8.ofNat_toNat]
      · cases h

/-- What a leading byte and a second one in its range say together: how long the sequence is, and
the bits of both, which are neither too small for the length nor too great for a code point nor
those of a surrogate. -/
theorem lead_cases {b second : UInt8} {lead : Lead} (h : Lead.ofByte? b = some lead)
    (hsecond : lead.secondLow ≤ second.toNat ∧ second.toNat ≤ lead.secondHigh) :
    ∃ low, low < 0x40 ∧ second = UInt8.ofNat (0x80 + low) ∧
      (lead.following = 1 ∧ b.toNat = 0xC0 + lead.bits ∧
          0x80 ≤ lead.bits * 0x40 + low ∧ lead.bits * 0x40 + low < 0x800 ∨
        lead.following = 2 ∧ b.toNat = 0xE0 + lead.bits ∧
          0x20 ≤ lead.bits * 0x40 + low ∧ lead.bits * 0x40 + low < 0x400 ∧
          (lead.bits * 0x40 + low < 0x360 ∨ 0x37F < lead.bits * 0x40 + low) ∨
        lead.following = 3 ∧ b.toNat = 0xF0 + lead.bits ∧
          0x10 ≤ lead.bits * 0x40 + low ∧ lead.bits * 0x40 + low < 0x110) := by
  have hrange : 0x80 ≤ second.toNat ∧ second.toNat < 0xC0 := by
    simp only [Lead.ofByte?] at h
    split_ifs at h
    all_goals
      obtain rfl := Option.some.inj h
      simp only at hsecond
      omega
  have hbyte : 0x80 + (second.toNat - 0x80) = second.toNat := by omega
  refine ⟨second.toNat - 0x80, by omega, by rw [hbyte, UInt8.ofNat_toNat], ?_⟩
  simp only [Lead.ofByte?] at h
  split_ifs at h
  all_goals
    obtain rfl := Option.some.inj h
    dsimp only at hsecond ⊢
    omega

/-- The bytes of a character whose bits come from two bytes. -/
theorem encodeChar_two {b : UInt8} {bits low : Nat} (hb : b.toNat = 0xC0 + bits)
    (hlow : low < 0x40) (hv : 0x80 ≤ bits * 0x40 + low ∧ bits * 0x40 + low < 0x800) :
    encodeChar (Char.ofNat (bits * 0x40 + low)) = [b, UInt8.ofNat (0x80 + low)] := by
  have hfirst : 0xC0 + (bits * 0x40 + low) / 0x40 = b.toNat := by omega
  have hlast : (bits * 0x40 + low) % 0x40 = low := by omega
  simp only [encodeChar, toNat_charOfNat (v := bits * 0x40 + low) (by omega)]
  rw [if_neg (by omega), if_pos (by omega), hfirst, hlast, UInt8.ofNat_toNat]

/-- The bytes of a character whose bits come from three bytes. -/
theorem encodeChar_three {b : UInt8} {bits low last : Nat} (hb : b.toNat = 0xE0 + bits)
    (hlow : low < 0x40) (hlast : last < 0x40)
    (hv : 0x20 ≤ bits * 0x40 + low ∧ bits * 0x40 + low < 0x400 ∧
      (bits * 0x40 + low < 0x360 ∨ 0x37F < bits * 0x40 + low)) :
    encodeChar (Char.ofNat ((bits * 0x40 + low) * 0x40 + last))
      = [b, UInt8.ofNat (0x80 + low), UInt8.ofNat (0x80 + last)] := by
  have hfirst : 0xE0 + ((bits * 0x40 + low) * 0x40 + last) / 0x1000 = b.toNat := by omega
  have hsecond : ((bits * 0x40 + low) * 0x40 + last) / 0x40 % 0x40 = low := by omega
  have hthird : ((bits * 0x40 + low) * 0x40 + last) % 0x40 = last := by omega
  simp only [encodeChar, toNat_charOfNat (v := (bits * 0x40 + low) * 0x40 + last) (by omega)]
  rw [if_neg (by omega), if_neg (by omega), if_pos (by omega), hfirst, hsecond, hthird,
    UInt8.ofNat_toNat]

/-- The bytes of a character whose bits come from four bytes. -/
theorem encodeChar_four {b : UInt8} {bits low third last : Nat} (hb : b.toNat = 0xF0 + bits)
    (hlow : low < 0x40) (hthird : third < 0x40) (hlast : last < 0x40)
    (hv : 0x10 ≤ bits * 0x40 + low ∧ bits * 0x40 + low < 0x110) :
    encodeChar (Char.ofNat (((bits * 0x40 + low) * 0x40 + third) * 0x40 + last))
      = [b, UInt8.ofNat (0x80 + low), UInt8.ofNat (0x80 + third), UInt8.ofNat (0x80 + last)] := by
  have hbits : ((bits * 0x40 + low) * 0x40 + third) * 0x40 + last
      = (bits * 0x40 + low) * 0x1000 + third * 0x40 + last := by omega
  rw [hbits]
  generalize hv' : (bits * 0x40 + low) * 0x1000 + third * 0x40 + last = v
  have hfirst : 0xF0 + v / 0x40000 = b.toNat := by omega
  have hsecond : v / 0x1000 % 0x40 = low := by omega
  have hnext : v / 0x40 % 0x40 = third := by omega
  have hend : v % 0x40 = last := by omega
  simp only [encodeChar, toNat_charOfNat (v := v) (by omega)]
  rw [if_neg (by omega), if_neg (by omega), if_neg (by omega), hfirst, hsecond, hnext, hend,
    UInt8.ofNat_toNat]

/-- The character that is read at the front stands there with its bytes. -/
theorem front_eq_char {b : UInt8} {rest : List UInt8} {c : Char} {length : Nat}
    (h : front b rest = .char c length) :
    ∃ more tail, rest = more ++ tail ∧ encodeChar c = b :: more ∧ length = more.length + 1 := by
  rw [front] at h
  split at h
  · rename_i hone
    obtain ⟨rfl, rfl⟩ := Front.char.inj h
    refine ⟨[], rest, rfl, ?_, rfl⟩
    simp only [encodeChar, toNat_charOfNat (v := b.toNat) (by omega)]
    rw [if_pos hone, UInt8.ofNat_toNat]
  · split at h
    · cases h
    · rename_i lead hlead
      split at h
      · cases h
      · rename_i second more
        split at h
        · rename_i hsecond
          obtain ⟨low, hlow, rfl, hcases⟩ := lead_cases hlead hsecond
          rw [toNat_byte (n := 0x80 + low) (by omega), Nat.add_sub_cancel_left] at h
          rcases hcases with ⟨hfollowing, hb, hv⟩ | ⟨hfollowing, hb, hv⟩ | ⟨hfollowing, hb, hv⟩
          · rw [hfollowing] at h
            obtain ⟨rfl, rfl⟩ := Front.char.inj h
            exact ⟨_, more, rfl, encodeChar_two hb hlow hv, rfl⟩
          · rw [hfollowing] at h
            obtain ⟨last, tail, hlast, rfl, hgather⟩ := gather_eq_char h
            obtain ⟨rfl, rfl⟩ := Front.char.inj hgather
            exact ⟨[_, _], tail, rfl, encodeChar_three hb hlow hlast hv, rfl⟩
          · rw [hfollowing] at h
            obtain ⟨third, behind, hthird, rfl, hmore⟩ := gather_eq_char h
            obtain ⟨last, tail, hlast, rfl, hgather⟩ := gather_eq_char hmore
            obtain ⟨rfl, rfl⟩ := Front.char.inj hgather
            exact ⟨[_, _, _], tail, rfl, encodeChar_four hb hlow hthird hlast hv, rfl⟩
        · cases h

/-! ### Texts that are read -/

/-- Bytes that are read, wherever they begin, are those of the text. -/
theorem encode_of_decodeFrom {index : Nat} {bytes : List UInt8} {cs : List Char}
    (h : decodeFrom index 0 bytes = .ok cs) : encode cs = bytes := by
  match bytes with
  | [] =>
      obtain rfl := Except.ok.inj h
      rfl
  | b :: rest =>
      rw [decodeFrom] at h
      split at h
      · rename_i c length hfront
        obtain ⟨more, tail, rfl, hbytes, rfl⟩ := front_eq_char hfront
        rw [Nat.add_sub_cancel, decodeFrom_skip] at h
        obtain ⟨found, hfound, h⟩ := Except.bind_eq_ok.mp h
        obtain rfl := Except.ok.inj h
        rw [encode_cons, hbytes, encode_of_decodeFrom hfound]
        rfl
      · cases h
      · cases h
termination_by bytes.length

/-- **Exactly the bytes of a text are read as that text.** -/
theorem decode_eq_ok_iff {bytes : List UInt8} {cs : List Char} :
    decode bytes = .ok cs ↔ encode cs = bytes := by
  constructor
  · exact encode_of_decodeFrom
  · rintro rfl
    exact decode_encode cs

/-! ### Strings -/

theorem encodeChar_eq (c : Char) : encodeChar c = String.utf8EncodeChar c := by
  have hbound : c.toNat < 0x110000 := by
    have hvalid : c.toNat < 0xD800 ∨ 0xDFFF < c.toNat ∧ c.toNat < 0x110000 := c.valid
    omega
  have hval : c.val.toNat = c.toNat := rfl
  simp only [encodeChar, String.utf8EncodeChar, hval]
  generalize c.toNat = v at hbound
  have hlast : 0x80 + v % 0x40 = v % 0x40 + 0x80 := Nat.add_comm _ _
  have hthird : 0x80 + v / 0x40 % 0x40 = v / 0x40 % 0x40 + 0x80 := Nat.add_comm _ _
  -- the library's bounds of the ranges are included
  have hbounds : (v ≤ 0x7F ↔ v < 0x80) ∧ (v ≤ 0x7FF ↔ v < 0x800) ∧ (v ≤ 0xFFFF ↔ v < 0x10000) := by
    omega
  simp only [hbounds]
  split
  · rfl
  · split
    · have hfirst : 0xC0 + v / 0x40 = v / 0x40 % 0x20 + 0xC0 := by omega
      rw [hfirst, hlast]
    · split
      · have hfirst : 0xE0 + v / 0x1000 = v / 0x1000 % 0x10 + 0xE0 := by omega
        rw [hfirst, hthird, hlast]
      · have hfirst : 0xF0 + v / 0x40000 = v / 0x40000 % 8 + 0xF0 := by omega
        have hsecond : 0x80 + v / 0x1000 % 0x40 = v / 0x1000 % 0x40 + 0x80 := Nat.add_comm _ _
        rw [hfirst, hsecond, hthird, hlast]

/-- The bytes of a text are those of the string. -/
theorem toByteArray_encode (cs : List Char) :
    (encode cs).toByteArray = (String.ofList cs).toByteArray := by
  have hencode : encodeChar = String.utf8EncodeChar := funext encodeChar_eq
  rw [encode, hencode, String.toByteArray_ofList, List.utf8Encode]

end StylePrint.Text.Utf8
