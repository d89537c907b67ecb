import Mathlib.Algebra.Group.Nat.Defs
import StylePrint.SourceMap.Vlq
import StylePrint.Text.Utf8
/-!
Variable-length quantities, written and read back. The bytes of a number are digits below 64, none
of which is a comma or a semicolon. As long as a number's code fits 63 bits, reading its bytes never
wraps around, so it gives back the number and leaves what follows to be read as it would be alone
(`Vlq.decode_bytes_append`).
-/

namespace StylePrint.SourceMap.Vlq

/-! ### Digits as bytes -/

/-- The byte that a digit is written as. -/
def byteOf (digit : Nat) : UInt8 :=
  UInt8.ofNat (symbol digit).toNat

/-- What a digit's byte is: the whole of its character, the digit itself when read, and no mark of
the segments around it. -/
theorem byteOf_spec (d : Fin 64) :
    Text.Utf8.encodeChar (symbol d) = [byteOf d] ∧ digitOf (byteOf d) = d ∧
      byteOf d ≠ 44 ∧ byteOf d ≠ 59 := by
  revert d
  decide

/-- Every digit fits six bits. -/
theorem lt_of_mem_digits {code d : Nat} (h : d ∈ digits code) : d < 64 := by
  induction code using digits.induct with
  | case1 code hlt =>
      rw [digits, if_pos hlt, List.mem_singleton] at h
      omega
  | case2 code hge ih =>
      rw [digits, if_neg hge, List.mem_cons] at h
      rcases h with rfl | h
      · omega
      · exact ih h

theorem digits_ne_nil (code : Nat) : digits code ≠ [] := by
  rw [digits]
  split <;> simp

/-- The bytes of a signed number. -/
def bytes (n : Int) : List UInt8 :=
  (digits (code n)).map byteOf

/-- The characters of a number are its bytes. -/
theorem encode_utf8 (n : Int) : Text.Utf8.encode (encode n) = bytes n := by
  have each : ∀ ds : List Nat, (∀ d ∈ ds, d < 64) →
      Text.Utf8.encode (ds.map symbol) = ds.map byteOf := by
    intro ds hds
    induction ds with
    | nil => rfl
    | cons d ds ih =>
        have hd := (byteOf_spec ⟨d, hds d (by simp)⟩).1
        rw [List.map_cons, Text.Utf8.encode_cons, hd,
          ih (fun d' h => hds d' (List.mem_cons_of_mem d h))]
        rfl
  exact each _ (fun d h => lt_of_mem_digits h)

theorem bytes_ne_nil (n : Int) : bytes n ≠ [] := by
  rw [bytes, ne_eq, List.map_eq_nil_iff]
  exact digits_ne_nil _

/-- No byte of a number is a comma or a semicolon. -/
theorem not_mark_of_mem_bytes {n : Int} {b : UInt8} (h : b ∈ bytes n) : b ≠ 44 ∧ b ≠ 59 := by
  obtain ⟨d, hd, rfl⟩ := List.mem_map.mp h
  exact (byteOf_spec ⟨d, lt_of_mem_digits hd⟩).2.2

/-! ### Reading back -/

/-- A number is told by its code. -/
@[simp] theorem value_code (n : Int) : value (code n) = n := by
  cases n with
  | ofNat k =>
      have even : ((code (.ofNat k) : Nat) : Int) % 2 = 0 := by
        simp only [code]
        omega
      rw [value, if_pos even]
      simp only [code, Int.ofNat_eq_natCast]
      omega
  | negSucc k =>
      have odd : ¬ ((code (.negSucc k) : Nat) : Int) % 2 = 0 := by
        simp only [code]
        omega
      rw [value, if_neg odd]
      simp only [code]
      omega

/-- A code is at most one more than twice the number's magnitude. -/
theorem code_lt {n : Int} {k : Nat} (h : n.natAbs < k) : code n < 2 * k := by
  cases n with
  | ofNat m =>
      simp only [code]
      simp only [Int.ofNat_eq_natCast, Int.natAbs_natCast] at h
      omega
  | negSucc m =>
      simp only [code]
      rw [Int.natAbs_negSucc] at h
      omega

/-- Natural numbers below 2⁶³ are not wrapped. -/
theorem wrap_natCast {n : Nat} (h : n < 2 ^ 63) : wrap (n : Int) = n := by
  show Int.bmod n 18446744073709551616 = n
  apply Int.bmod_eq_of_le_mul_two <;> omega

/-- Adding a digit's part to a code in progress does not wrap while both fit. -/
theorem wrap_add_wrap {acc d shift : Nat} (h : acc + d * 2 ^ shift < 2 ^ 63) :
    wrap ((acc : Int) + wrap (d <<< shift : Nat)) = ((acc + d * 2 ^ shift : Nat) : Int) := by
  have part : d <<< shift = d * 2 ^ shift := Nat.shiftLeft_eq d shift
  have hpart : d * 2 ^ shift < 2 ^ 63 := by omega
  rw [part, wrap_natCast hpart, ← Int.natCast_add, wrap_natCast h]

/-- A code is its lowest digit and the rest of it, five bits further on. -/
theorem mul_two_pow_eq_digit_add (c shift : Nat) :
    c * 2 ^ shift = c % 32 * 2 ^ shift + c / 32 * 2 ^ (shift + 5) := by
  calc c * 2 ^ shift = (c % 32 + c / 32 * 32) * 2 ^ shift := by rw [Nat.mod_add_div']
    _ = c % 32 * 2 ^ shift + c / 32 * (32 * 2 ^ shift) := by rw [Nat.add_mul, Nat.mul_assoc]
    _ = c % 32 * 2 ^ shift + c / 32 * 2 ^ (shift + 5) := by rw [Nat.pow_add, Nat.mul_comm 32]

/-- Reading the digits of a code adds the code, shifted, to what has been read of the number, and
finishes the number. -/
theorem decodeFrom_digits (c acc shift : Nat) (rest : List UInt8) (hshift : shift < 64)
    (hroom : acc + c * 2 ^ shift < 2 ^ 63) :
    decodeFrom acc shift ((digits c).map byteOf ++ rest)
      = (decodeFrom 0 0 rest).map (value ((acc + c * 2 ^ shift : Nat) : Int) :: ·) := by
  induction c using digits.induct generalizing acc shift with
  | case1 c hlt =>
      have hd : digitOf (byteOf c) = c := (byteOf_spec ⟨c, by omega⟩).2.1
      rw [digits, if_pos hlt, List.map_cons, List.map_nil, List.cons_append, List.nil_append,
        decodeFrom, if_neg (by omega), hd]
      simp only [Nat.mod_eq_of_lt hlt, wrap_add_wrap hroom, if_neg (Nat.not_le.mpr hlt)]
      cases decodeFrom 0 0 rest <;> rfl
  | case2 c hge ih =>
      have hd : digitOf (byteOf (c % 32 + 32)) = c % 32 + 32 :=
        (byteOf_spec ⟨c % 32 + 32, by omega⟩).2.1
      have hmod : (c % 32 + 32) % 32 = c % 32 := by omega
      have htotal : acc + c % 32 * 2 ^ shift + c / 32 * 2 ^ (shift + 5) = acc + c * 2 ^ shift := by
        rw [mul_two_pow_eq_digit_add c shift, Nat.add_assoc]
      have hnext : shift + 5 < 64 := by
        have hle : 2 ^ (shift + 5) ≤ c / 32 * 2 ^ (shift + 5) :=
          Nat.le_mul_of_pos_left _ (by omega)
        have := (Nat.pow_lt_pow_iff_right (by omega : 1 < 2)).mp
          (by omega : 2 ^ (shift + 5) < 2 ^ 63)
        omega
      rw [digits, if_neg hge, List.map_cons, List.cons_append, decodeFrom, if_neg (by omega), hd]
      simp only [hmod, wrap_add_wrap (by omega : acc + c % 32 * 2 ^ shift < 2 ^ 63),
        if_pos (Nat.le_add_left 32 (c % 32))]
      rw [ih (acc + c % 32 * 2 ^ shift) (shift + 5) hnext (htotal ▸ hroom), htotal]

/-- Numbers of less than 62 bits are read back, whatever follows them. -/
theorem decode_bytes_append {n : Int} (hn : n.natAbs < 2 ^ 62) (rest : List UInt8) :
    decode (bytes n ++ rest) = (decode rest).map (n :: ·) := by
  have hcode : code n < 2 ^ 63 := by
    have := code_lt hn
    omega
  have h := decodeFrom_digits (code n) 0 0 rest (by omega) (by simpa using hcode)
  rw [decode, bytes]
  simp only [Nat.zero_add, Nat.pow_zero, Nat.mul_one, value_code] at h
  exact h

/-- A row of numbers is read back. -/
theorem decode_flatMap_bytes {ns : List Int} (hns : ∀ n ∈ ns, n.natAbs < 2 ^ 62) :
    decode (ns.flatMap bytes) = .ok ns := by
  induction ns with
  | nil => rfl
  | cons n ns ih =>
      rw [List.flatMap_cons, decode_bytes_append (hns n (by simp)),
        ih (fun m hm => hns m (List.mem_cons_of_mem n hm))]
      rfl

end StylePrint.SourceMap.Vlq
