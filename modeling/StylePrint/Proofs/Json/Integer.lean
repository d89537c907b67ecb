import Mathlib.Data.List.TakeWhile
import StylePrint.Json.Numeral
import StylePrint.Proofs.Json.Lexeme
/-!
Integers as numerals. The text of an integer is read as its numeral, and the numeral of an integer
of at most 64 bits has that integer as its value (`Numeral.ofChars?_integer`,
`Numeral.number?_ofInt`).
-/

namespace StylePrint.Json

/-- The numeral of an integer. -/
def Numeral.ofInt (value : Int) : Numeral :=
  ⟨value < 0, Nat.toDigits 10 value.natAbs, none, none⟩

/-- The numeral that a number is written as. -/
def Number.numeral : Number → Numeral
  | .integer value => .ofInt value
  | .float bits => (Numeral.ofChars? (Shortest.text bits)).getD (.ofInt 0)

/-- Whether a number is an integer of at most 64 bits. -/
def Number.Exact : Number → Prop
  | .integer value => -9223372036854775808 ≤ value ∧ value < 18446744073709551616
  | .float _ => False

namespace Numeral

/-! ### Reading digits -/

/-- No zero stands before another digit. -/
theorem toDigits_ne_zero_cons (n : Nat) (c : Char) (rest : List Char) :
    Nat.toDigits 10 n ≠ '0' :: c :: rest := by
  induction n using Nat.strongRecOn generalizing c rest with
  | ind n ih =>
      intro h
      by_cases hn : n < 10
      · rw [Nat.toDigits_of_lt_base hn] at h
        exact absurd (List.cons.inj h).2.symm (List.cons_ne_nil c rest)
      · rw [Nat.toDigits_of_base_le (by decide) (Nat.le_of_not_lt hn)] at h
        obtain ⟨d, ds, hd, -⟩ := toDigits_eq_cons (n / 10)
        rw [hd, List.cons_append] at h
        obtain ⟨rfl, hrest⟩ := List.cons.inj h
        cases ds with
        | cons d ds => exact ih (n / 10) (by omega) d ds hd
        | nil =>
            -- the digits before the last one are a single zero, so there are none
            have hzero := congrArg (Nat.ofDigitChars 10 · 0) hd
            simp only [Nat.ofDigitChars_ten_toDigits] at hzero
            have : n / 10 = 0 := hzero
            omega

/-- Digits are read as a numeral without fraction and exponent. -/
theorem unsigned?_toDigits (negative : Bool) (n : Nat) :
    unsigned? negative (Nat.toDigits 10 n) = some ⟨negative, Nat.toDigits 10 n, none, none⟩ := by
  have hdigits : digits (Nat.toDigits 10 n) = (Nat.toDigits 10 n, []) := by
    have all : ∀ c ∈ Nat.toDigits 10 n, c.isDigit = true := fun c hc => isDigit_of_mem_toDigits hc
    rw [digits, List.takeWhile_eq_self_iff.mpr all, List.dropWhile_eq_nil_iff.mpr all]
  rw [unsigned?, hdigits]
  obtain ⟨c, rest, h, -⟩ := toDigits_eq_cons n
  split
  · rename_i heq
    rw [h] at heq
    cases (Prod.mk.inj heq).1
  · rename_i heq
    exact absurd (Prod.mk.inj heq).1 (toDigits_ne_zero_cons n _ _)
  · rename_i heq
    obtain ⟨rfl, rfl⟩ := Prod.mk.inj heq
    rfl

/-- The text of an integer is read as its numeral. -/
theorem ofChars?_integer (value : Int) :
    ofChars? (Number.integer value).chars = some (ofInt value) := by
  cases value with
  | ofNat n =>
      obtain ⟨c, rest, h, hc⟩ := toDigits_eq_cons n
      have hplain : ofChars? (Nat.toDigits 10 n) = unsigned? false (Nat.toDigits 10 n) := by
        rw [h, ofChars?]
        rintro cs hminus
        rw [(List.cons.inj hminus).1] at hc
        cases hc
      rw [Number.chars, hplain, unsigned?_toDigits]
      simp [ofInt]
  | negSucc n =>
      rw [Number.chars, ofChars?, unsigned?_toDigits]
      simp [ofInt]

/-! ### Values -/

/-- The numeral of an integer of at most 64 bits has that integer as its value. -/
theorem number?_ofInt {value : Int} (h : (Number.integer value).Exact) :
    (ofInt value).number? = some (.integer value) := by
  obtain ⟨hlow, hhigh⟩ := h
  have hdecimal : decimal (Nat.toDigits 10 value.natAbs) = value.natAbs :=
    Nat.ofDigitChars_ten_toDigits
  have hlimit : Nat.pow 2 63 = 9223372036854775808 := rfl
  have hsize : UInt64.size = 18446744073709551616 := rfl
  have hinteger : (ofInt value).integer? = some value := by
    simp only [ofInt, integer?, hdecimal, hlimit, hsize]
    by_cases hneg : value < 0
    · rw [if_pos (decide_eq_true hneg), if_pos (by omega)]
      congr 1
      omega
    · rw [if_neg (by simpa using hneg), if_pos (by omega)]
      congr 1
      omega
  rw [number?, hinteger]

end Numeral

end StylePrint.Json
