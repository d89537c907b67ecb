import Mathlib.Algebra.Order.Field.Power
import Mathlib.Tactic.FieldSimp
import Mathlib.Tactic.Linarith
import Mathlib.Tactic.NormNum
import Mathlib.Tactic.Positivity
import Mathlib.Tactic.Ring
import StylePrint.Json.Shortest
/-!
What rounds to a binary64 number. The decimals that round to a number fill an interval
(`Binary.Covers`); the intervals of two numbers have no point in common (`Binary.eq_of_covers`),
and the digits chosen for a number lie in its interval (`Binary.covers_shortest`). Sizes are exact
rational numbers.
-/

namespace StylePrint.Json.Shortest

/-! ### The grid of a power of ten -/

theorem zpow_mul_toNat {a : ℚ} (ha : a ≠ 0) (q : Int) :
    a ^ q * a ^ (-q).toNat = a ^ q.toNat := by
  rw [← zpow_natCast, ← zpow_natCast, ← zpow_add₀ ha]
  congr 1
  omega

theorem onGrid_pos (m : Nat) (q k : Int) : 0 < (onGrid m q k).2 :=
  Nat.mul_pos (Nat.pow_pos (by omega)) (Nat.pow_pos (by omega))

/-- Numerator and denominator are those of the number in units of the grid. -/
theorem onGrid_eq (m : Nat) (q k : Int) :
    ((onGrid m q k).1 : ℚ) = m * 2 ^ q / 10 ^ k * (onGrid m q k).2 := by
  have htwo : (2 : ℚ) ^ q * 2 ^ (-q).toNat = 2 ^ q.toNat := zpow_mul_toNat two_ne_zero q
  have hten : (10 : ℚ) ^ k * 10 ^ (-k).toNat = 10 ^ k.toNat := zpow_mul_toNat (by norm_num) k
  have hne : (10 : ℚ) ^ k ≠ 0 := zpow_ne_zero k (by norm_num)
  simp only [onGrid, Nat.pow_eq, Nat.cast_mul, Nat.cast_pow, Nat.cast_ofNat]
  rw [← htwo, ← hten]
  field_simp

theorem onGrid_le_iff {m d : Nat} {q k : Int} :
    (onGrid m q k).1 ≤ d * (onGrid m q k).2 ↔ (m : ℚ) * 2 ^ q ≤ d * 10 ^ k := by
  have hden : (0 : ℚ) < (onGrid m q k).2 := Nat.cast_pos.mpr (onGrid_pos m q k)
  rw [← Nat.cast_le (α := ℚ), Nat.cast_mul, onGrid_eq, mul_le_mul_iff_of_pos_right hden,
    div_le_iff₀ (by positivity)]

theorem le_onGrid_iff {m d : Nat} {q k : Int} :
    d * (onGrid m q k).2 ≤ (onGrid m q k).1 ↔ (d : ℚ) * 10 ^ k ≤ m * 2 ^ q := by
  have hden : (0 : ℚ) < (onGrid m q k).2 := Nat.cast_pos.mpr (onGrid_pos m q k)
  rw [← Nat.cast_le (α := ℚ), Nat.cast_mul, onGrid_eq, mul_le_mul_iff_of_pos_right hden,
    le_div_iff₀ (by positivity)]

/-! ### Intervals -/

namespace Binary

/-- The size of a number. -/
def value (b : Binary) : ℚ := b.mantissa * 2 ^ b.exponent

/-- The middle of the gap below a number, in quarters of the gap above. -/
def lowQuarters (b : Binary) : Nat := 4 * b.mantissa - if b.narrow then 1 else 2

/-- The middle of the gap above a number, in quarters of that gap. -/
def highQuarters (b : Binary) : Nat := 4 * b.mantissa + 2

/-- Whether a decimal rounds to a number: it lies between the middles of the two gaps, which
themselves round to the number with the even mantissa. -/
def Covers (b : Binary) (x : ℚ) : Prop :=
  if b.mantissa % 2 = 0 then
    b.lowQuarters * 2 ^ (b.exponent - 2) ≤ x ∧ x ≤ b.highQuarters * 2 ^ (b.exponent - 2)
  else b.lowQuarters * 2 ^ (b.exponent - 2) < x ∧ x < b.highQuarters * 2 ^ (b.exponent - 2)

theorem roundsTo_iff {b : Binary} {k : Int} {d : Nat} :
    b.roundsTo k d = true ↔ b.Covers (d * 10 ^ k) := by
  simp only [roundsTo, Covers, lowQuarters, highQuarters]
  split
  · rw [Bool.and_eq_true, decide_eq_true_iff, decide_eq_true_iff, onGrid_le_iff, le_onGrid_iff]
  · rw [Bool.and_eq_true, decide_eq_true_iff, decide_eq_true_iff, ← not_le, le_onGrid_iff,
      ← not_le (a := (onGrid _ _ _).1), onGrid_le_iff, not_le, not_le]

theorem Covers.low_le {b : Binary} {x : ℚ} (h : b.Covers x) :
    b.lowQuarters * 2 ^ (b.exponent - 2) ≤ x := by
  unfold Covers at h
  split at h
  · exact h.1
  · exact h.1.le

theorem Covers.le_high {b : Binary} {x : ℚ} (h : b.Covers x) :
    x ≤ b.highQuarters * 2 ^ (b.exponent - 2) := by
  unfold Covers at h
  split at h
  · exact h.2
  · exact h.2.le

/-- A number with an odd mantissa leaves the middle of the gap above it to its neighbour. -/
theorem Covers.lt_high {b : Binary} {x : ℚ} (h : b.Covers x) (hodd : b.mantissa % 2 = 1) :
    x < b.highQuarters * 2 ^ (b.exponent - 2) := by
  rw [Covers, if_neg (by omega)] at h
  exact h.2

theorem Covers.low_lt {b : Binary} {x : ℚ} (h : b.Covers x) (hodd : b.mantissa % 2 = 1) :
    b.lowQuarters * 2 ^ (b.exponent - 2) < x := by
  rw [Covers, if_neg (by omega)] at h
  exact h.1

theorem covers_zero {b : Binary} (h : b.mantissa = 0) : b.Covers 0 := by
  have hlow : b.lowQuarters = 0 := by simp [lowQuarters, h]
  rw [Covers, if_pos (by rw [h]), hlow, Nat.cast_zero, zero_mul]
  exact ⟨le_rfl, by positivity⟩

theorem Covers.pos {b : Binary} {x : ℚ} (h : b.Covers x) (hpos : 0 < b.mantissa) : 0 < x := by
  have hquarters : 0 < b.lowQuarters := by
    unfold lowQuarters
    split <;> omega
  exact (mul_pos (Nat.cast_pos.mpr hquarters) (by positivity)).trans_le h.low_le

/-- Whether mantissa and exponent are those of a binary64 number: the mantissa takes up all its
bits, unless the exponent is the lowest. -/
structure Canonical (b : Binary) : Prop where
  lt : b.mantissa < 2 ^ 53
  le_exponent : -1074 ≤ b.exponent
  full : b.exponent = -1074 ∨ 2 ^ 52 ≤ b.mantissa
  narrow_iff : b.narrow = true ↔ b.mantissa = 2 ^ 52 ∧ -1074 < b.exponent

/-- The middle of the gap below is nearer when that gap is the narrow one. -/
theorem Canonical.lowQuarters_eq {b : Binary} (h : b.Canonical) :
    b.mantissa = 2 ^ 52 ∧ -1074 < b.exponent ∧ b.lowQuarters = 4 * b.mantissa - 1 ∨
      ¬ (b.mantissa = 2 ^ 52 ∧ -1074 < b.exponent) ∧ b.lowQuarters = 4 * b.mantissa - 2 := by
  rw [← h.narrow_iff, lowQuarters]
  by_cases hnarrow : b.narrow = true
  · obtain ⟨hmantissa, hexponent⟩ := h.narrow_iff.mp hnarrow
    exact Or.inl ⟨hmantissa, hexponent, by rw [if_pos hnarrow]⟩
  · exact Or.inr ⟨hnarrow, by rw [if_neg hnarrow]⟩

theorem canonical_ofBits (bits : UInt64) : (ofBits bits).Canonical := by
  have hpow : Nat.pow 2 52 = 4503599627370496 := rfl
  unfold ofBits
  simp only [hpow]
  split
  · constructor
    · dsimp only; omega
    · exact le_rfl
    · exact Or.inl rfl
    · simp
  · constructor
    · dsimp only; omega
    · dsimp only; omega
    · dsimp only; omega
    · simp only [decide_eq_true_iff]; omega

/-- The bits are told by the sign and the number. -/
theorem ofBits_inj {v w : UInt64} (hsign : v.toNat < 2 ^ 63 ↔ w.toNat < 2 ^ 63)
    (h : ofBits v = ofBits w) : v = w := by
  have hv := v.toNat_lt
  have hw := w.toNat_lt
  have hpow : Nat.pow 2 52 = 4503599627370496 := rfl
  apply UInt64.toNat_inj.mp
  unfold ofBits at h
  simp only [hpow] at h
  split at h <;> split at h <;>
    · obtain ⟨hmantissa, hexponent, -⟩ := Binary.mk.inj h
      omega

/-- Where two intervals meet, the lower number's middle above is not below the other's middle
below. -/
theorem Covers.low_le_high {b c : Binary} {x : ℚ} (hb : b.Covers x) (hc : c.Covers x)
    (hle : b.exponent ≤ c.exponent) :
    c.lowQuarters * 2 ^ (c.exponent - b.exponent).toNat ≤ b.highQuarters ∧
      (b.mantissa % 2 = 1 ∨ c.mantissa % 2 = 1 →
        c.lowQuarters * 2 ^ (c.exponent - b.exponent).toNat < b.highQuarters) := by
  have hunit : (0 : ℚ) < 2 ^ (b.exponent - 2) := by positivity
  have hlow : (c.lowQuarters : ℚ) * 2 ^ (c.exponent - 2)
      = ((c.lowQuarters * 2 ^ (c.exponent - b.exponent).toNat : Nat) : ℚ)
        * 2 ^ (b.exponent - 2) := by
    rw [Nat.cast_mul, Nat.cast_pow, Nat.cast_ofNat, mul_assoc, ← zpow_natCast,
      ← zpow_add₀ two_ne_zero]
    congr 2
    omega
  constructor
  · have hmeet := hc.low_le.trans hb.le_high
    rw [hlow, mul_le_mul_iff_of_pos_right hunit] at hmeet
    exact_mod_cast hmeet
  · intro hodd
    have hmeet : (c.lowQuarters : ℚ) * 2 ^ (c.exponent - 2)
        < b.highQuarters * 2 ^ (b.exponent - 2) := by
      rcases hodd with hodd | hodd
      · exact hc.low_le.trans_lt (hb.lt_high hodd)
      · exact (hc.low_lt hodd).trans_le hb.le_high
    rw [hlow, mul_lt_mul_iff_of_pos_right hunit] at hmeet
    exact_mod_cast hmeet

/-- Of two numbers with one exponent that cover one decimal, none has the smaller mantissa. -/
theorem Covers.mantissa_le {b c : Binary} {x : ℚ} (hc : c.Canonical) (hbx : b.Covers x)
    (hcx : c.Covers x) (he : b.exponent = c.exponent) : c.mantissa ≤ b.mantissa := by
  obtain ⟨hle, hlt⟩ := hbx.low_le_high hcx he.le
  rw [he, sub_self, Int.toNat_zero, pow_zero, mul_one] at hle hlt
  rw [highQuarters] at hle hlt
  rcases hc.lowQuarters_eq with ⟨-, -, hlow⟩ | ⟨-, hlow⟩
  · omega
  · omega

/-- A number with a higher exponent has no decimal in common with one of a lower. -/
theorem Covers.exponent_le {b c : Binary} {x : ℚ} (hb : b.Canonical) (hc : c.Canonical)
    (hbx : b.Covers x) (hcx : c.Covers x) : c.exponent ≤ b.exponent := by
  by_contra habove
  have hlowest := hb.le_exponent
  obtain ⟨hle, hlt⟩ := hbx.low_le_high hcx (by omega)
  -- the mantissa above takes up all its bits, and its gap is twice as wide at least
  have hfull : 2 ^ 52 ≤ c.mantissa := hc.full.resolve_left (by omega)
  have hwide : 2 * c.lowQuarters ≤ c.lowQuarters * 2 ^ (c.exponent - b.exponent).toNat := by
    rw [mul_comm]
    apply Nat.mul_le_mul_left
    obtain ⟨n, hn⟩ : ∃ n, (c.exponent - b.exponent).toNat = n + 1 :=
      ⟨(c.exponent - b.exponent).toNat - 1, by omega⟩
    rw [hn, pow_succ]
    exact Nat.le_mul_of_pos_left 2 (by positivity)
  have hmantissa := hb.lt
  rw [highQuarters] at hle hlt
  rcases hc.lowQuarters_eq with ⟨-, -, hlow⟩ | ⟨hwider, hlow⟩
  · omega
  · omega

/-- **No decimal rounds to two numbers.** -/
theorem eq_of_covers {b c : Binary} {x : ℚ} (hb : b.Canonical) (hc : c.Canonical)
    (hbx : b.Covers x) (hcx : c.Covers x) : b = c := by
  have hexponent : b.exponent = c.exponent :=
    le_antisymm (hcx.exponent_le hc hb hbx) (hbx.exponent_le hb hc hcx)
  have hmantissa : b.mantissa = c.mantissa :=
    le_antisymm (hcx.mantissa_le hb hbx hexponent.symm) (hbx.mantissa_le hc hcx hexponent)
  have hnarrow : b.narrow = c.narrow := by
    rw [Bool.eq_iff_iff, hb.narrow_iff, hc.narrow_iff, hexponent, hmantissa]
  cases b
  cases c
  cases hexponent
  cases hmantissa
  cases hnarrow
  rfl

/-! ### Chosen digits -/

theorem value_eq (b : Binary) : b.value = 4 * b.mantissa * 2 ^ (b.exponent - 2) := by
  rw [value, zpow_sub₀ two_ne_zero]
  ring

/-- The power of ten of the leading digit is not above the number. -/
theorem magnitude_le {b : Binary} (hpos : 0 < b.mantissa) (hlow : -1074 ≤ b.exponent) :
    (10 : ℚ) ^ b.magnitude ≤ b.value := by
  have hden : (0 : ℚ) < (onGrid b.mantissa b.exponent 0).2 := Nat.cast_pos.mpr (onGrid_pos ..)
  have hnum : ((onGrid b.mantissa b.exponent 0).1 : ℚ)
      = b.value * (onGrid b.mantissa b.exponent 0).2 := by
    rw [onGrid_eq, zpow_zero, div_one, value]
  unfold magnitude
  simp only
  generalize onGrid b.mantissa b.exponent 0 = grid at hden hnum
  split
  · -- the whole part has a digit for each power of ten up to the leading one
    rename_i hle
    have hwhole : ((grid.1 / grid.2 : Nat) : ℚ) ≤ b.value := by
      rw [← mul_le_mul_iff_of_pos_right hden, ← hnum]
      exact_mod_cast Nat.div_mul_le_self grid.1 grid.2
    have hone : 1 ≤ grid.1 / grid.2 :=
      (Nat.one_le_div_iff (Nat.cast_pos.mp hden)).mpr hle
    refine le_trans ?_ hwhole
    obtain ⟨n, hn⟩ : ∃ n, (Nat.toDigits 10 (grid.1 / grid.2)).length = n + 1 :=
      ⟨_, (Nat.succ_pred_eq_of_pos Nat.length_toDigits_pos).symm⟩
    have hleading : 10 ^ n ≤ grid.1 / grid.2 := by
      cases n with
      | zero => exact hone
      | succ n =>
          by_contra hsmall
          have := (Nat.length_toDigits_le_iff (by omega) (Nat.succ_pos n)).mpr (not_le.mp hsmall)
          omega
    rw [hn, Nat.cast_succ, add_sub_cancel_right, zpow_natCast]
    exact_mod_cast hleading
  · split
    · -- the first power of ten that lifts the number to one
      rename_i j hfind
      have hfirst : grid.2 ≤ grid.1 * 10 ^ j := by simpa using List.find?_some hfind
      have hlift : (grid.2 : ℚ) ≤ grid.1 * 10 ^ j := by exact_mod_cast hfirst
      rw [hnum, mul_right_comm, le_mul_iff_one_le_left hden] at hlift
      rw [zpow_neg, zpow_natCast]
      exact (inv_le_iff_one_le_mul₀ (by positivity)).mpr hlift
    · -- no number is smaller than the last power of ten tried
      have hmantissa : (1 : ℚ) ≤ b.mantissa := by exact_mod_cast hpos
      have hsmallest : (2 : ℚ) ^ (-1074 : Int) ≤ 2 ^ b.exponent :=
        zpow_le_zpow_right₀ one_le_two hlow
      have hlast : (2 : ℚ) ^ 1074 ≤ 10 ^ 330 :=
        calc (2 : ℚ) ^ 1074 ≤ 2 ^ (33 * 33) := pow_le_pow_right₀ one_le_two (by omega)
          _ = (2 ^ 33) ^ 33 := pow_mul 2 33 33
          _ ≤ (10 ^ 10) ^ 33 := pow_le_pow_left₀ (by norm_num) (by norm_num) 33
          _ = 10 ^ 330 := (pow_mul 10 10 33).symm
      calc (10 : ℚ) ^ (-330 : Int) = (10 ^ 330)⁻¹ := by rw [zpow_neg]; rfl
        _ ≤ (2 ^ 1074)⁻¹ := inv_anti₀ (by positivity) hlast
        _ = 2 ^ (-1074 : Int) := by rw [zpow_neg]; rfl
        _ ≤ 2 ^ b.exponent := hsmallest
        _ ≤ b.value := le_mul_of_one_le_left (by positivity) hmantissa

/-- What is off by half of the seventeenth digit at most rounds to the number. -/
theorem covers_of_near {b : Binary} {x : ℚ} (hb : b.Canonical) (hpos : 0 < b.mantissa)
    (h : |x - b.value| * (2 * 10 ^ 16) ≤ b.value) : b.Covers x := by
  have hunit : (0 : ℚ) < 2 ^ (b.exponent - 2) := by positivity
  have hmantissa : (b.mantissa : ℚ) * 2 ^ (b.exponent - 2) ≤ 2 ^ 53 * 2 ^ (b.exponent - 2) := by
    apply mul_le_mul_of_nonneg_right _ hunit.le
    exact_mod_cast hb.lt.le
  rw [← le_div_iff₀ (by norm_num), abs_le, value_eq] at h
  obtain ⟨hbelow, habove⟩ := h
  have hhigh : x < b.highQuarters * 2 ^ (b.exponent - 2) := by
    rw [highQuarters]
    push_cast
    linarith
  have hlow : b.lowQuarters * 2 ^ (b.exponent - 2) < x := by
    rcases hb.lowQuarters_eq with ⟨hnarrow, -, hlow⟩ | ⟨-, hlow⟩
    · rw [hlow, Nat.cast_sub (by omega), hnarrow]
      rw [hnarrow] at hbelow
      push_cast at hbelow ⊢
      linarith
    · rw [hlow, Nat.cast_sub (by omega)]
      push_cast
      linarith
  unfold Covers
  split
  · exact ⟨hlow.le, hhigh.le⟩
  · exact ⟨hlow, hhigh⟩

theorem covers_of_digits? {b : Binary} {count d : Nat} {k : Int}
    (h : b.digits? count = some (d, k)) : b.Covers (d * 10 ^ k) := by
  rw [← roundsTo_iff]
  unfold digits? at h
  simp only at h
  split at h
  · rename_i hbelow habove
    obtain ⟨rfl, rfl⟩ := Prod.mk.inj (Option.some.inj h)
    split
    · exact hbelow
    · exact habove
  · rename_i hbelow _
    obtain ⟨rfl, rfl⟩ := Prod.mk.inj (Option.some.inj h)
    exact hbelow
  · rename_i _ habove
    obtain ⟨rfl, rfl⟩ := Prod.mk.inj (Option.some.inj h)
    exact habove
  · cases h

/-- Seventeen digits always read back. -/
theorem isSome_digits? {b : Binary} (hb : b.Canonical) (hpos : 0 < b.mantissa) :
    (b.digits? 17).isSome := by
  have hmagnitude := magnitude_le hpos hb.le_exponent
  have hstep : (10 : ℚ) ^ (b.magnitude - 17 + 1) * 10 ^ 16 = 10 ^ b.magnitude := by
    rw [← zpow_natCast, ← zpow_add₀ (by norm_num)]
    congr 1
    omega
  have hunit : (0 : ℚ) < 10 ^ (b.magnitude - 17 + 1) := by positivity
  unfold digits?
  simp only [Nat.cast_ofNat]
  generalize b.magnitude - 17 + 1 = k at hstep hunit
  have hden := onGrid_pos b.mantissa b.exponent k
  generalize hgrid : (onGrid b.mantissa b.exponent k).1 / (onGrid b.mantissa b.exponent k).2 = d
  have hbelow : (d : ℚ) * 10 ^ k ≤ b.value := by
    rw [value, ← le_onGrid_iff, ← hgrid]
    exact Nat.div_mul_le_self _ _
  have habove : b.value ≤ ((d + 1 : Nat) : ℚ) * 10 ^ k := by
    rw [value, ← onGrid_le_iff, ← hgrid]
    exact ((Nat.div_lt_iff_lt_mul hden).mp (Nat.lt_succ_self _)).le
  -- the nearer of the two grid points around the number rounds to it
  have hnear : b.roundsTo k d = true ∨ b.roundsTo k (d + 1) = true := by
    rw [roundsTo_iff, roundsTo_iff]
    push_cast at habove ⊢
    by_cases hhalf : (b.value - d * 10 ^ k) * 2 ≤ 10 ^ k
    · apply Or.inl (covers_of_near hb hpos _)
      rw [abs_of_nonpos (by linarith)]
      linarith
    · apply Or.inr (covers_of_near hb hpos _)
      rw [abs_of_nonneg (by linarith)]
      linarith
  rcases hnear with h | h
  · rw [h]
    cases b.roundsTo k (d + 1) <;> rfl
  · rw [h]
    cases b.roundsTo k d <;> rfl

/-- **The shortest digits round to the number.** -/
theorem covers_shortest {b : Binary} (hb : b.Canonical) (hpos : 0 < b.mantissa) :
    b.Covers (b.shortest.1 * 10 ^ b.shortest.2) := by
  have hsome : (((List.range 17).map (· + 1)).findSome? b.digits?).isSome := by
    rw [List.findSome?_isSome_iff]
    exact ⟨17, by simp, isSome_digits? hb hpos⟩
  obtain ⟨⟨d, k⟩, hfound⟩ := Option.isSome_iff_exists.mp hsome
  obtain ⟨count, -, hdigits⟩ := List.exists_of_findSome?_eq_some hfound
  rw [shortest, hfound]
  exact covers_of_digits? hdigits

end Binary

/-- Leaving zeros out at the end does not change the number. -/
theorem trim_eq (d : Nat) (k : Int) (fuel : Nat) :
    ((trim d k fuel).1 : ℚ) * 10 ^ (trim d k fuel).2 = d * 10 ^ k := by
  induction fuel generalizing d k with
  | zero => rfl
  | succ fuel ih =>
      rw [trim]
      split
      · rename_i hzero
        have htenth : (d : ℚ) = (d / 10 : Nat) * 10 := by
          exact_mod_cast (Nat.div_mul_cancel (Nat.dvd_of_mod_eq_zero hzero.1)).symm
        rw [ih, htenth, zpow_add_one₀ (by norm_num)]
        ring
      · rfl

end StylePrint.Json.Shortest
