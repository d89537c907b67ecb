import StylePrint.Text.Base64
import StylePrint.Text.Utf8
/-!
Base64, written and read back. Each symbol is one byte, which stands for the symbol's digit and is
never the padding (`Base64.byteOf_spec`), so the bytes that were written are read back group by
group (`Base64.decode_encode`).
-/

namespace StylePrint.Text.Base64

/-! ### Symbols as bytes -/

/-- The byte that a digit is written as. -/
def byteOf (digit : Nat) : UInt8 :=
  UInt8.ofNat (symbol digit).toNat

/-- What a digit's byte is: the whole of its symbol, the digit itself when read, and no padding. -/
theorem byteOf_spec {digit : Nat} (h : digit < 64) :
    Utf8.encodeChar (symbol digit) = [byteOf digit] ∧ digit? (byteOf digit) = some digit ∧
      byteOf digit ≠ pad := by
  have all : ∀ d : Fin 64, Utf8.encodeChar (symbol d) = [byteOf d] ∧
      digit? (byteOf d) = some d.val ∧ byteOf d ≠ pad := by decide
  exact all ⟨digit, h⟩

theorem digitAt_byteOf {digit : Nat} (h : digit < 64) (offset : Nat) :
    digitAt offset (byteOf digit) = .ok digit := by
  rw [digitAt, (byteOf_spec h).2.1]

theorem encode_symbol {digit : Nat} (h : digit < 64) (rest : List Char) :
    Utf8.encode (symbol digit :: rest) = byteOf digit :: Utf8.encode rest := by
  rw [Utf8.encode_cons, (byteOf_spec h).1]
  rfl

theorem encode_pad (rest : List Char) : Utf8.encode ('=' :: rest) = pad :: Utf8.encode rest := by
  rw [Utf8.encode_cons]
  rfl

/-! ### Digits of bytes -/

/-- Three bytes are told by their four digits. -/
theorem triple_digits (a b c : UInt8) :
    triple (a.toNat / 4) (a.toNat % 4 * 16 + b.toNat / 16) (b.toNat % 16 * 4 + c.toNat / 64)
      (c.toNat % 64) = [a, b, c] := by
  have ha := a.toNat_lt
  have hb := b.toNat_lt
  have hc := c.toNat_lt
  have first : a.toNat / 4 * 4 + (a.toNat % 4 * 16 + b.toNat / 16) / 16 = a.toNat := by omega
  have second : (a.toNat % 4 * 16 + b.toNat / 16) % 16 * 16
      + (b.toNat % 16 * 4 + c.toNat / 64) / 4 = b.toNat := by omega
  have third : (b.toNat % 16 * 4 + c.toNat / 64) % 4 * 64 + c.toNat % 64 = c.toNat := by omega
  rw [triple, first, second, third, UInt8.ofNat_toNat, UInt8.ofNat_toNat, UInt8.ofNat_toNat]

/-- A digit in the last group, in front of the padding. -/
theorem lastDigits_byteOf {digit : Nat} (h : digit < 64) (start place : Nat)
    (rest : List UInt8) :
    lastDigits start place none (byteOf digit :: rest)
      = (lastDigits start (place + 1) none rest).map ((byteOf digit, digit) :: ·) := by
  rw [lastDigits, if_neg (byteOf_spec h).2.2]
  simp only [digitAt_byteOf h]
  rfl

/-! ### Groups -/

/-- A last group of one byte. -/
theorem decodeLast_one (start : Nat) (a : UInt8) :
    decodeLast start [byteOf (a.toNat / 4), byteOf (a.toNat % 4 * 16), pad, pad] = .ok [a] := by
  have ha := a.toNat_lt
  have hvalue : a.toNat / 4 * 4 + a.toNat % 4 * 16 / 16 = a.toNat := by omega
  have hpads : lastDigits start 2 none [pad, pad] = .ok [] := rfl
  have hunused : a.toNat % 4 * 16 % 16 = 0 := by omega
  rw [decodeLast, lastDigits_byteOf (by omega), lastDigits_byteOf (by omega), hpads]
  show (if a.toNat % 4 * 16 % 16 = 0 then
    Except.ok [UInt8.ofNat (a.toNat / 4 * 4 + a.toNat % 4 * 16 / 16)] else _) = _
  rw [if_pos hunused, hvalue, UInt8.ofNat_toNat]

/-- A last group of two bytes. -/
theorem decodeLast_two (start : Nat) (a b : UInt8) :
    decodeLast start [byteOf (a.toNat / 4), byteOf (a.toNat % 4 * 16 + b.toNat / 16),
      byteOf (b.toNat % 16 * 4), pad] = .ok [a, b] := by
  have ha := a.toNat_lt
  have hb := b.toNat_lt
  have first : a.toNat / 4 * 4 + (a.toNat % 4 * 16 + b.toNat / 16) / 16 = a.toNat := by omega
  have second : (a.toNat % 4 * 16 + b.toNat / 16) % 16 * 16 + b.toNat % 16 * 4 / 4 = b.toNat := by
    omega
  have hpad : lastDigits start 3 none [pad] = .ok [] := rfl
  have hunused : b.toNat % 16 * 4 % 4 = 0 := by omega
  rw [decodeLast, lastDigits_byteOf (by omega), lastDigits_byteOf (by omega),
    lastDigits_byteOf (by omega), hpad]
  show (if b.toNat % 16 * 4 % 4 = 0 then
    Except.ok [UInt8.ofNat (a.toNat / 4 * 4 + (a.toNat % 4 * 16 + b.toNat / 16) / 16),
      UInt8.ofNat ((a.toNat % 4 * 16 + b.toNat / 16) % 16 * 16 + b.toNat % 16 * 4 / 4)]
    else _) = _
  rw [if_pos hunused, first, second, UInt8.ofNat_toNat, UInt8.ofNat_toNat]

/-- A last group of three bytes. -/
theorem decodeLast_three (start : Nat) (a b c : UInt8) :
    decodeLast start [byteOf (a.toNat / 4), byteOf (a.toNat % 4 * 16 + b.toNat / 16),
      byteOf (b.toNat % 16 * 4 + c.toNat / 64), byteOf (c.toNat % 64)] = .ok [a, b, c] := by
  have ha := a.toNat_lt
  have hb := b.toNat_lt
  have hc := c.toNat_lt
  have hend : lastDigits start 4 none [] = .ok [] := rfl
  rw [decodeLast, lastDigits_byteOf (by omega), lastDigits_byteOf (by omega),
    lastDigits_byteOf (by omega), lastDigits_byteOf (by omega), hend]
  exact congrArg Except.ok (triple_digits a b c)

/-! ### Texts -/

/-- Group after group is read back. -/
theorem decodeFrom_encode (start : Nat) (bytes : List UInt8) :
    decodeFrom start (Utf8.encode (encode bytes)) = .ok bytes := by
  induction bytes using encode.induct generalizing start with
  | case1 => rfl
  | case2 a =>
      have ha := a.toNat_lt
      rw [encode, encode_symbol (by omega), encode_symbol (by omega), encode_pad, encode_pad]
      exact decodeLast_one start a
  | case3 a b =>
      have ha := a.toNat_lt
      have hb := b.toNat_lt
      rw [encode, encode_symbol (by omega), encode_symbol (by omega), encode_symbol (by omega),
        encode_pad]
      exact decodeLast_two start a b
  | case4 a b c rest ih =>
      have ha := a.toNat_lt
      have hb := b.toNat_lt
      have hc := c.toNat_lt
      rw [encode, encode_symbol (by omega), encode_symbol (by omega), encode_symbol (by omega),
        encode_symbol (by omega)]
      have hrest := ih (start + 4)
      -- a group is the last one when nothing follows it
      cases hmore : Utf8.encode (encode rest) with
      | nil =>
          rw [hmore] at hrest
          obtain rfl : rest = [] := (Except.ok.inj hrest).symm
          exact decodeLast_three start a b c
      | cons e more =>
          rw [hmore] at hrest
          rw [decodeFrom, digitAt_byteOf (by omega), digitAt_byteOf (by omega),
            digitAt_byteOf (by omega), digitAt_byteOf (by omega), hrest]
          exact congrArg (fun group => Except.ok (group ++ rest)) (triple_digits a b c)

/-- Whole groups of symbols leave no byte over. -/
theorem length_encode_mod (bytes : List UInt8) :
    (Utf8.encode (encode bytes)).length % 4 = 0 := by
  induction bytes using encode.induct with
  | case1 => rfl
  | case2 a =>
      have ha := a.toNat_lt
      rw [encode, encode_symbol (by omega), encode_symbol (by omega), encode_pad, encode_pad]
      simp
  | case3 a b =>
      have ha := a.toNat_lt
      have hb := b.toNat_lt
      rw [encode, encode_symbol (by omega), encode_symbol (by omega), encode_symbol (by omega),
        encode_pad]
      simp
  | case4 a b c rest ih =>
      have ha := a.toNat_lt
      have hb := b.toNat_lt
      have hc := c.toNat_lt
      rw [encode, encode_symbol (by omega), encode_symbol (by omega), encode_symbol (by omega),
        encode_symbol (by omega)]
      simp only [List.length_cons]
      omega

/-- **Bytes are read back from their Base64 text.** -/
theorem decode_encode (bytes : List UInt8) : decode (Utf8.encode (encode bytes)) = .ok bytes := by
  have hstray : strayLast? (Utf8.encode (encode bytes)) = none := by
    rw [strayLast?]
    split
    · rw [if_neg]
      rintro ⟨hone, -⟩
      rw [length_encode_mod] at hone
      cases hone
    · rfl
  rw [decode, hstray]
  exact decodeFrom_encode 0 bytes

/-- Nothing but symbols and the padding character is written. -/
theorem mem_encode {bytes : List UInt8} {c : Char} (h : c ∈ encode bytes) :
    c = '=' ∨ ∃ digit < 64, c = symbol digit := by
  induction bytes using encode.induct with
  | case1 => cases h
  | case2 a =>
      have ha := a.toNat_lt
      simp only [encode, List.mem_cons, List.not_mem_nil, or_false] at h
      rcases h with rfl | rfl | rfl | rfl
      · exact .inr ⟨_, by omega, rfl⟩
      · exact .inr ⟨_, by omega, rfl⟩
      · exact .inl rfl
      · exact .inl rfl
  | case3 a b =>
      have ha := a.toNat_lt
      have hb := b.toNat_lt
      simp only [encode, List.mem_cons, List.not_mem_nil, or_false] at h
      rcases h with rfl | rfl | rfl | rfl
      · exact .inr ⟨_, by omega, rfl⟩
      · exact .inr ⟨_, by omega, rfl⟩
      · exact .inr ⟨_, by omega, rfl⟩
      · exact .inl rfl
  | case4 a b c rest ih =>
      have ha := a.toNat_lt
      have hb := b.toNat_lt
      have hc := c.toNat_lt
      simp only [encode, List.mem_cons] at h
      rcases h with rfl | rfl | rfl | rfl | hrest
      · exact .inr ⟨_, by omega, rfl⟩
      · exact .inr ⟨_, by omega, rfl⟩
      · exact .inr ⟨_, by omega, rfl⟩
      · exact .inr ⟨_, by omega, rfl⟩
      · exact ih hrest

end StylePrint.Text.Base64
