import StylePrint.Proofs.Json.Integer
import StylePrint.Proofs.Json.Rounding
import StylePrint.Proofs.Separated
/-!
Floating-point numbers as numerals. The text of a floating-point number is read as a numeral whose
exact size rounds to the number (`Numeral.ofChars?_text`), and so it tells the bits
(`Shortest.text_inj`). With that a number's text tells the number (`Number.chars_inj`).
-/

namespace StylePrint.Json

namespace Numeral

/-! ### The size of a numeral -/

/-- The power of ten that a numeral's last digit stands for. -/
def power (n : Numeral) : Int :=
  (match n.exponent with
    | none => 0
    | some (negative, ds) => if negative then -(decimal ds : Int) else decimal ds)
    - (n.fraction.getD []).length

/-- The exact size of a numeral, its sign left out. -/
def size (n : Numeral) : ℚ :=
  decimal (n.whole ++ n.fraction.getD []) * 10 ^ n.power

theorem decimal_zeros_append (n : Nat) (ds : List Char) :
    decimal (List.replicate n '0' ++ ds) = decimal ds := by
  rw [decimal, Nat.ofDigitChars_append, Nat.ofDigitChars_replicate_zero, Nat.mul_zero, decimal]

theorem decimal_append_zeros (ds : List Char) (n : Nat) :
    decimal (ds ++ List.replicate n '0') = decimal ds * 10 ^ n := by
  rw [decimal, Nat.ofDigitChars_append, Nat.ofDigitChars_replicate_zero, decimal, Nat.mul_comm]

/-! ### Reading the parts of a numeral -/

/-- Whether no digit begins the characters. -/
def EndsDigits (cs : List Char) : Prop := ∀ c ∈ cs.head?, c.isDigit = false

theorem digits_append {ds rest : List Char} (hds : ∀ c ∈ ds, c.isDigit = true)
    (hrest : EndsDigits rest) : digits (ds ++ rest) = (ds, rest) := by
  rw [digits, List.takeWhile_append_of_stops hds hrest, List.dropWhile_append_of_stops hds hrest]

/-- Whether digits can be the whole part of a numeral: no zero stands before another digit. -/
structure IsWhole (ds : List Char) : Prop where
  isDigit : ∀ c ∈ ds, c.isDigit = true
  ne_nil : ds ≠ []
  ne_zero : ∀ c rest, ds ≠ '0' :: c :: rest

theorem isWhole_zero : IsWhole ['0'] :=
  ⟨by simp, by simp, by simp⟩

theorem isWhole_cons {d : Char} {ds : List Char} (h : ∀ c ∈ d :: ds, c.isDigit = true)
    (hd : d ≠ '0') : IsWhole (d :: ds) :=
  ⟨h, by simp, fun _ _ heq => hd (List.cons.inj heq).1⟩

theorem unsigned?_append (negative : Bool) {whole rest : List Char} (h : IsWhole whole)
    (hrest : EndsDigits rest) :
    unsigned? negative (whole ++ rest) = (fraction? rest).bind fun (fraction, rest) =>
      (exponent? rest).map fun exponent => ⟨negative, whole, fraction, exponent⟩ := by
  rw [unsigned?, digits_append h.isDigit hrest]
  split
  · rename_i heq
    exact absurd (Prod.mk.inj heq).1 h.ne_nil
  · rename_i heq
    exact absurd (Prod.mk.inj heq).1 (h.ne_zero _ _)
  · rename_i heq
    obtain ⟨rfl, rfl⟩ := Prod.mk.inj heq
    simp only [Option.bind_eq_bind, Option.pure_def, Option.map_eq_bind, Function.comp_def]

/-- A whole part, a point and a fraction, with whatever exponent follows. -/
theorem unsigned?_point (negative : Bool) {whole fraction rest : List Char}
    {exponent : Option (Bool × List Char)} (h : IsWhole whole)
    (hfraction : ∀ c ∈ fraction, c.isDigit = true) (hne : fraction ≠ [])
    (hrest : EndsDigits rest) (hexponent : exponent? rest = some exponent) :
    unsigned? negative (whole ++ '.' :: (fraction ++ rest))
      = some ⟨negative, whole, some fraction, exponent⟩ := by
  have hpoint : EndsDigits ('.' :: (fraction ++ rest)) := by
    rintro _ ⟨⟩
    rfl
  have hread : fraction? ('.' :: (fraction ++ rest)) = some (some fraction, rest) := by
    rw [fraction?, digits_append hfraction hrest]
    split
    · rename_i heq
      exact absurd (Prod.mk.inj heq).1 hne
    · rename_i heq
      obtain ⟨rfl, rfl⟩ := Prod.mk.inj heq
      rfl
  rw [unsigned?_append negative h hpoint, hread, Option.bind_some]
  simp only [hexponent, Option.map_some]

/-- The mark of an exponent and the text of an integer. -/
theorem exponent?_mark (e : Int) :
    exponent? ('e' :: (toString e).toList)
      = some (some (decide (e < 0), Nat.toDigits 10 e.natAbs)) := by
  have all : ∀ n, (Nat.toDigits 10 n).all Char.isDigit = true := fun n =>
    List.all_eq_true.mpr fun c hc => isDigit_of_mem_toDigits hc
  cases e with
  | ofNat n =>
      have hchars : (toString (Int.ofNat n)).toList = Nat.toDigits 10 n := Nat.toList_repr
      obtain ⟨c, rest, h, hc⟩ := toDigits_eq_cons n
      have unsigned : ∀ sign, c = sign → sign.isDigit = false → False := by
        rintro _ rfl hsign
        rw [hc] at hsign
        cases hsign
      rw [hchars, h, exponent?, if_pos (Or.inl rfl)]
      · rw [← h, if_pos ⟨Nat.toDigits_ne_nil, all n⟩]
        rfl
      · intro more heq
        exact unsigned '-' (List.cons.inj heq).1 rfl
      · intro more heq
        exact unsigned '+' (List.cons.inj heq).1 rfl
  | negSucc n =>
      have hchars : (toString (Int.negSucc n)).toList = '-' :: Nat.toDigits 10 (n + 1) := by
        show ("-" ++ Nat.repr (n + 1)).toList = _
        rw [String.toList_append, Nat.toList_repr]
        rfl
      rw [hchars, exponent?, if_pos (Or.inl rfl), if_pos ⟨Nat.toDigits_ne_nil, all (n + 1)⟩,
        decide_eq_true (Int.negSucc_lt_zero n)]
      rfl

theorem power_mark (negative : Bool) (whole : List Char) (fraction : Option (List Char)) (e : Int) :
    power ⟨negative, whole, fraction, some (decide (e < 0), Nat.toDigits 10 e.natAbs)⟩
      = e - (fraction.getD []).length := by
  have hdecimal : decimal (Nat.toDigits 10 e.natAbs) = e.natAbs := Nat.ofDigitChars_ten_toDigits
  simp only [power, hdecimal, decide_eq_true_iff]
  split <;> omega

/-! ### Laid-out digits -/

/-- Whether characters are read, behind either sign, as a numeral of the given size. -/
def Reads (cs : List Char) (x : ℚ) : Prop :=
  ∀ negative, ∃ n, unsigned? negative cs = some n ∧ n.negative = negative ∧ n.size = x

section LaidOut

variable {d : Char} {ds : List Char}

theorem isDigit_of_mem_zeros {n : Nat} {c : Char} (hc : c ∈ List.replicate n '0') :
    c.isDigit = true := by
  rw [List.eq_of_mem_replicate hc]
  rfl

theorem endsDigits_nil : EndsDigits [] := nofun

theorem endsDigits_mark (e : Int) : EndsDigits ('e' :: (toString e).toList) := by
  rintro _ ⟨⟩
  rfl

/-- Digits with zeros behind them, all before the point. -/
theorem reads_padded (hds : ∀ c ∈ d :: ds, c.isDigit = true) (hd : d ≠ '0') (n : Nat) :
    Reads (d :: ds ++ List.replicate n '0' ++ ['.', '0']) (decimal (d :: ds) * 10 ^ (n : Int)) := by
  intro negative
  have hdigits : ∀ c ∈ d :: ds ++ List.replicate n '0', c.isDigit = true :=
    List.forall_mem_append.mpr ⟨hds, fun _ => isDigit_of_mem_zeros⟩
  have hzero : ∀ c ∈ (['0'] : List Char), c.isDigit = true := by simp
  refine ⟨⟨negative, d :: ds ++ List.replicate n '0', some ['0'], none⟩, ?_, rfl, ?_⟩
  · exact unsigned?_point negative (isWhole_cons hdigits hd) hzero (List.cons_ne_nil _ _)
      endsDigits_nil rfl
  · have hlast : (['0'] : List Char) = List.replicate 1 '0' := rfl
    rw [size, Option.getD_some, List.append_assoc, hlast, ← List.replicate_add,
      decimal_append_zeros, Nat.cast_mul, Nat.cast_pow, Nat.cast_ofNat, mul_assoc,
      ← zpow_natCast, ← zpow_add₀ (by norm_num)]
    congr 2
    simp only [power, Option.getD_some, List.length_replicate]
    omega

/-- Digits with the point among them. -/
theorem reads_among (hds : ∀ c ∈ d :: ds, c.isDigit = true) (hd : d ≠ '0') {n : Nat}
    (hn : n < ds.length) :
    Reads ((d :: ds).take (n + 1) ++ ['.'] ++ (d :: ds).drop (n + 1))
      (decimal (d :: ds) * 10 ^ ((n : Int) - ds.length)) := by
  intro negative
  have hwhole : ∀ c ∈ d :: ds.take n, c.isDigit = true := by
    intro c hc
    rw [← List.take_succ_cons] at hc
    exact hds c (List.mem_of_mem_take hc)
  have hfraction : ∀ c ∈ ds.drop n, c.isDigit = true := fun c hc =>
    hds c (List.mem_cons_of_mem d (List.mem_of_mem_drop hc))
  have hne : ds.drop n ≠ [] := by
    rw [Ne, List.drop_eq_nil_iff]
    omega
  refine ⟨⟨negative, d :: ds.take n, some (ds.drop n), none⟩, ?_, rfl, ?_⟩
  · have hread := unsigned?_point negative (isWhole_cons hwhole hd) hfraction hne endsDigits_nil rfl
    rw [List.take_succ_cons, List.drop_succ_cons, List.append_assoc]
    simpa using hread
  · rw [size, Option.getD_some, List.cons_append, List.take_append_drop]
    congr 2
    simp only [power, Option.getD_some, List.length_drop]
    omega

/-- Digits with zeros between them and the point. -/
theorem reads_behind (hds : ∀ c ∈ ds, c.isDigit = true) (hne : ds ≠ []) (n : Nat) :
    Reads (['0', '.'] ++ List.replicate n '0' ++ ds)
      (decimal ds * 10 ^ (-(n : Int) - ds.length)) := by
  intro negative
  have hfraction : ∀ c ∈ List.replicate n '0' ++ ds, c.isDigit = true :=
    List.forall_mem_append.mpr ⟨fun _ => isDigit_of_mem_zeros, hds⟩
  refine ⟨⟨negative, ['0'], some (List.replicate n '0' ++ ds), none⟩, ?_, rfl, ?_⟩
  · have hread := unsigned?_point negative isWhole_zero hfraction (by simp [hne]) endsDigits_nil rfl
    simpa using hread
  · have hfirst : (['0'] : List Char) = List.replicate 1 '0' := rfl
    rw [size, Option.getD_some, hfirst, decimal_zeros_append, decimal_zeros_append]
    congr 2
    simp only [power, Option.getD_some, List.length_append, List.length_replicate]
    omega

/-- A digit with an exponent behind it. -/
theorem reads_digit (hd : d.isDigit = true) (hne : d ≠ '0') (e : Int) :
    Reads (d :: 'e' :: (toString e).toList) (decimal [d] * 10 ^ e) := by
  intro negative
  have hwhole : IsWhole [d] := isWhole_cons (by simpa using hd) hne
  refine ⟨⟨negative, [d], none, some (decide (e < 0), Nat.toDigits 10 e.natAbs)⟩, ?_, rfl, ?_⟩
  · have hread := unsigned?_append negative hwhole (endsDigits_mark e)
    rw [fraction?, Option.bind_some] at hread
    · simp only [exponent?_mark, Option.map_some] at hread
      exact hread
    · rintro rest ⟨⟩
  · rw [size, power_mark]
    congr 2
    exact Int.sub_zero e

/-- A digit, a point and more digits with an exponent behind them. -/
theorem reads_scientific (hd : d.isDigit = true) (hne : d ≠ '0')
    (hds : ∀ c ∈ ds, c.isDigit = true) (hnil : ds ≠ []) (e : Int) :
    Reads (d :: '.' :: ds ++ 'e' :: (toString e).toList)
      (decimal (d :: ds) * 10 ^ (e - ds.length)) := by
  intro negative
  have hwhole : IsWhole [d] := isWhole_cons (by simpa using hd) hne
  refine ⟨⟨negative, [d], some ds, some (decide (e < 0), Nat.toDigits 10 e.natAbs)⟩, ?_, rfl, ?_⟩
  · exact unsigned?_point negative hwhole hds hnil (endsDigits_mark e) (exponent?_mark e)
  · rw [size, power_mark]
    rfl

/-- **Laid-out digits are read as a numeral of the size they were laid out for.** -/
theorem reads_layOut (hds : ∀ c ∈ d :: ds, c.isDigit = true) (hd : d ≠ '0') (k : Int) :
    Reads (Shortest.layOut (d :: ds) k) (decimal (d :: ds) * 10 ^ k) := by
  have hlength : (d :: ds).length = ds.length + 1 := List.length_cons
  obtain ⟨hfirst, hrest⟩ := List.forall_mem_cons.mp hds
  unfold Shortest.layOut
  simp only
  generalize hpoint : ((d :: ds).length : Int) + k = point
  split
  · have hread := reads_padded hds hd k.toNat
    rwa [Int.toNat_of_nonneg (by omega)] at hread
  · split
    · obtain ⟨n, hn⟩ : ∃ n, point.toNat = n + 1 := ⟨point.toNat - 1, by omega⟩
      have hread := reads_among (n := n) hds hd (by omega)
      rwa [← hn, show (n : Int) - ds.length = k by omega] at hread
    · split
      · have hread := reads_behind hds (List.cons_ne_nil _ _) (-point).toNat
        rwa [show -((-point).toNat : Int) - (d :: ds).length = k by omega] at hread
      · cases ds with
        | nil =>
            have hread := reads_digit hfirst hd (point - 1)
            rw [List.length_nil] at hlength
            rwa [show point - 1 = k by omega] at hread ⊢
        | cons d' ds =>
            have hread := reads_scientific hfirst hd hrest (List.cons_ne_nil _ _) (point - 1)
            rwa [show point - 1 - (d' :: ds).length = k by omega] at hread

end LaidOut

/-! ### The text of a floating-point number -/

/-- The digits of a positive number do not begin with a zero. -/
theorem toDigits_eq_cons_ne_zero {n : Nat} (hn : n ≠ 0) :
    ∃ c rest, Nat.toDigits 10 n = c :: rest ∧ c ≠ '0' := by
  obtain ⟨c, rest, h, -⟩ := toDigits_eq_cons n
  refine ⟨c, rest, h, ?_⟩
  rintro rfl
  cases rest with
  | nil =>
      apply hn
      rw [← Nat.ofDigitChars_ten_toDigits (n := n), h]
      rfl
  | cons c' rest => exact toDigits_ne_zero_cons n c' rest h

/-- What is read as an unsigned numeral begins with no sign. -/
theorem ofChars?_of_unsigned? {cs : List Char} {n : Numeral}
    (h : unsigned? false cs = some n) : ofChars? cs = some n := by
  unfold ofChars?
  split
  · have hminus : ('-' : Char).isDigit ≠ true := by simp
    rw [unsigned?, digits, List.takeWhile_cons_of_neg hminus] at h
    cases h
  · exact h

/-- **The text of a floating-point number is read as a numeral** whose sign is the number's and
whose size rounds to it. -/
theorem ofChars?_text (bits : UInt64) :
    ∃ n, ofChars? (Shortest.text bits) = some n ∧ (n.negative = true ↔ ¬ bits.toNat < 2 ^ 63) ∧
      (Shortest.Binary.ofBits bits).Covers n.size := by
  -- behind either sign the digits are read alike
  have signed : ∀ {cs : List Char} {x : ℚ}, Reads cs x →
      (Shortest.Binary.ofBits bits).Covers x →
      ∃ n, ofChars? ((if bits.toNat < Nat.pow 2 63 then [] else ['-']) ++ cs) = some n ∧
        (n.negative = true ↔ ¬ bits.toNat < 2 ^ 63) ∧
        (Shortest.Binary.ofBits bits).Covers n.size := by
    intro cs x hread hcovers
    split
    · rename_i hsign
      obtain ⟨n, hn, hnegative, rfl⟩ := hread false
      refine ⟨n, ofChars?_of_unsigned? hn, ?_, hcovers⟩
      rw [hnegative]
      exact ⟨nofun, fun h => absurd hsign h⟩
    · rename_i hsign
      obtain ⟨n, hn, hnegative, rfl⟩ := hread true
      exact ⟨n, hn, ⟨fun _ => hsign, fun _ => hnegative⟩, hcovers⟩
  have hcanonical := Shortest.Binary.canonical_ofBits bits
  unfold Shortest.text
  simp only
  split
  · rename_i hzero
    apply signed _ (Shortest.Binary.covers_zero hzero)
    intro negative
    refine ⟨⟨negative, ['0'], some ['0'], none⟩, rfl, rfl, ?_⟩
    have hnone : decimal ['0', '0'] = 0 := rfl
    rw [size, Option.getD_some, List.singleton_append, hnone, Nat.cast_zero, zero_mul]
  · rename_i hpos
    have hcovers := Shortest.Binary.covers_shortest hcanonical (Nat.pos_of_ne_zero hpos)
    rw [← Shortest.trim_eq _ _ 17] at hcovers
    generalize Shortest.trim (Shortest.Binary.ofBits bits).shortest.1
      (Shortest.Binary.ofBits bits).shortest.2 17 = digits at hcovers ⊢
    have hdigits : digits.1 ≠ 0 := by
      intro hzero
      have hlt := hcovers.pos (Nat.pos_of_ne_zero hpos)
      rw [hzero, Nat.cast_zero, zero_mul] at hlt
      exact lt_irrefl 0 hlt
    have hall : ∀ c ∈ Nat.toDigits 10 digits.1, c.isDigit = true := fun _ =>
      isDigit_of_mem_toDigits
    have hdecimal : decimal (Nat.toDigits 10 digits.1) = digits.1 := Nat.ofDigitChars_ten_toDigits
    obtain ⟨d, ds, hds, hd⟩ := toDigits_eq_cons_ne_zero hdigits
    rw [hds] at hall hdecimal ⊢
    have hread := reads_layOut hall hd digits.2
    rw [hdecimal] at hread
    exact signed hread hcovers

end Numeral

/-! ### Texts that tell the number -/

/-- The text of a number is read as its numeral. -/
theorem Number.ofChars?_chars (n : Number) : Numeral.ofChars? n.chars = some n.numeral := by
  cases n with
  | integer value => exact Numeral.ofChars?_integer value
  | float bits =>
      obtain ⟨numeral, hread, -⟩ := Numeral.ofChars?_text bits
      rw [chars, Number.numeral, hread, Option.getD_some]

/-- **The shortest text tells the bits.** -/
theorem Shortest.text_inj {v w : UInt64} (h : text v = text w) : v = w := by
  obtain ⟨n, hn, hnegative, hv⟩ := Numeral.ofChars?_text v
  obtain ⟨m, hm, hnegative', hw⟩ := Numeral.ofChars?_text w
  rw [h] at hn
  obtain rfl := Option.some.inj (hn.symm.trans hm)
  have hsign : v.toNat < 2 ^ 63 ↔ w.toNat < 2 ^ 63 :=
    not_iff_not.mp (hnegative.symm.trans hnegative')
  exact Binary.ofBits_inj hsign
    (Binary.eq_of_covers (Binary.canonical_ofBits v) (Binary.canonical_ofBits w) hv hw)

/-- **A number's text tells the number.** -/
theorem Number.chars_inj {n m : Number} (h : n.chars = m.chars) : n = m := by
  cases n with
  | integer v =>
      cases m with
      | integer w => rw [integer_inj h]
      | float bits => exact absurd (h ▸ (Shortest.isLexeme_text bits).2) (not_pointed_of_integer v)
  | float bits =>
      cases m with
      | integer w => exact absurd (h ▸ (Shortest.isLexeme_text bits).2) (not_pointed_of_integer w)
      | float bits' => rw [Shortest.text_inj h]

end StylePrint.Json
