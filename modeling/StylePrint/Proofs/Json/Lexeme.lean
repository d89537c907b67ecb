import StylePrint.Json.Printer
import StylePrint.Proofs.Separated
/-!
The texts of numbers and strings as parts of a longer text. A number's text is made of characters
that no bracket, comma or colon is (`Number.isLexeme_chars`), and an integer's text tells the
integer (`Number.integer_inj`); a string's text says itself where it ends (`quote_append_inj`).
-/

namespace StylePrint.Json

/-! ### Runs of numeric characters -/

/-- Whether a character may stand in the text of a number. -/
def isNumeric (c : Char) : Bool :=
  c.isDigit || c = '-' || c = '.' || c = 'e'

/-- Whether a character may begin the text of a number. -/
def beginsNumber (c : Char) : Bool :=
  c.isDigit || c = '-'

/-- Whether characters can be the text of a number, as far as the characters around it go. -/
structure IsLexeme (cs : List Char) : Prop where
  numeric : ∀ c ∈ cs, isNumeric c = true
  begins : ∃ c rest, cs = c :: rest ∧ beginsNumber c = true

/-- Whether a number ends where these characters begin. -/
def Stops (cs : List Char) : Prop :=
  ∀ c ∈ cs.head?, isNumeric c = false

theorem isNumeric_of_isDigit {c : Char} (h : c.isDigit = true) : isNumeric c = true := by
  simp [isNumeric, h]

theorem beginsNumber_of_isDigit {c : Char} (h : c.isDigit = true) : beginsNumber c = true := by
  simp [beginsNumber, h]

/-- Two runs of numeric characters that stop in one text are the same run. -/
theorem append_inj_of_stops {n m r s : List Char} (hn : ∀ c ∈ n, isNumeric c = true)
    (hm : ∀ c ∈ m, isNumeric c = true) (hr : Stops r) (hs : Stops s) (h : n ++ r = m ++ s) :
    n = m ∧ r = s := by
  have hrun : n = m := by
    rw [← List.takeWhile_append_of_stops hn hr, h, List.takeWhile_append_of_stops hm hs]
  subst hrun
  exact ⟨rfl, List.append_cancel_left h⟩

/-! ### Integers -/

theorem isDigit_of_mem_toDigits {n : Nat} {c : Char} (h : c ∈ Nat.toDigits 10 n) :
    c.isDigit = true :=
  Nat.isDigit_of_mem_toDigits (by decide) (by decide) h

theorem toDigits_inj {m n : Nat} (h : Nat.toDigits 10 m = Nat.toDigits 10 n) : m = n := by
  rw [← Nat.ofDigitChars_ten_toDigits (n := m), h, Nat.ofDigitChars_ten_toDigits]

/-- Digits begin with a digit. -/
theorem toDigits_eq_cons (n : Nat) :
    ∃ c rest, Nat.toDigits 10 n = c :: rest ∧ c.isDigit = true := by
  cases h : Nat.toDigits 10 n with
  | nil => exact absurd h Nat.toDigits_ne_nil
  | cons c rest =>
      have hmem : c ∈ Nat.toDigits 10 n := h ▸ List.mem_cons_self ..
      exact ⟨c, rest, rfl, isDigit_of_mem_toDigits hmem⟩

theorem isLexeme_toDigits (n : Nat) : IsLexeme (Nat.toDigits 10 n) := by
  constructor
  · intro c hc
    exact isNumeric_of_isDigit (isDigit_of_mem_toDigits hc)
  · obtain ⟨c, rest, h, hc⟩ := toDigits_eq_cons n
    exact ⟨c, rest, h, beginsNumber_of_isDigit hc⟩

theorem isLexeme_neg {cs : List Char} (h : IsLexeme cs) : IsLexeme ('-' :: cs) := by
  refine ⟨?_, '-', cs, rfl, rfl⟩
  intro c hc
  rcases List.mem_cons.mp hc with rfl | hc
  · rfl
  · exact h.numeric c hc

/-! ### Floating-point numbers -/

namespace Shortest

/-- The text of an integer is numeric. -/
theorem numeric_toString (n : Int) : ∀ c ∈ (toString n).toList, isNumeric c = true := by
  intro c hc
  rw [Int.toString_eq_repr] at hc
  cases n with
  | ofNat k =>
      have hrepr : (Int.repr (.ofNat k)).toList = Nat.toDigits 10 k := Nat.toList_repr
      rw [hrepr] at hc
      exact isNumeric_of_isDigit (isDigit_of_mem_toDigits hc)
  | negSucc k =>
      have hrepr : (Int.repr (.negSucc k)).toList = '-' :: Nat.toDigits 10 (k + 1) := by
        show ("-" ++ Nat.repr (k + 1)).toList = _
        rw [String.toList_append, Nat.toList_repr]
        rfl
      rw [hrepr] at hc
      exact (isLexeme_neg (isLexeme_toDigits (k + 1))).numeric c hc

/-- Laid out, a digit and more digits after it are numeric and begin with a digit, and a point or an
exponent stands among them. -/
theorem isLexeme_layOut {d : Char} {ds : List Char} (hds : ∀ c ∈ d :: ds, c.isDigit = true)
    (k : Int) :
    IsLexeme (layOut (d :: ds) k) ∧ ('.' ∈ layOut (d :: ds) k ∨ 'e' ∈ layOut (d :: ds) k) := by
  have digit : ∀ c ∈ d :: ds, isNumeric c = true := fun c hc => isNumeric_of_isDigit (hds c hc)
  have first : beginsNumber d = true := beginsNumber_of_isDigit (hds d (List.mem_cons_self ..))
  have zeros : ∀ n : Nat, ∀ c ∈ List.replicate n '0', isNumeric c = true := by
    intro n c hc
    rw [List.eq_of_mem_replicate hc]
    rfl
  have mark : ∀ c ∈ 'e' :: (toString (((d :: ds).length : Int) + k - 1)).toList,
      isNumeric c = true := List.forall_mem_cons.mpr ⟨rfl, numeric_toString _⟩
  unfold layOut
  simp only
  split
  · -- all digits stand before the point
    refine ⟨⟨?_, d, _, rfl, first⟩, Or.inl (by simp)⟩
    exact List.forall_mem_append.mpr ⟨List.forall_mem_append.mpr ⟨digit, zeros _⟩,
      List.all_eq_true.mp rfl⟩
  · split
    · -- the point stands among the digits
      rename_i hpoint
      obtain ⟨n, hn⟩ : ∃ n, (((d :: ds).length : Int) + k).toNat = n + 1 :=
        ⟨(((d :: ds).length : Int) + k).toNat - 1, by omega⟩
      rw [hn, List.take_succ_cons]
      refine ⟨⟨?_, d, _, rfl, first⟩, Or.inl (by simp)⟩
      refine List.forall_mem_append.mpr ⟨List.forall_mem_append.mpr ⟨?_,
        List.all_eq_true.mp rfl⟩, ?_⟩
      · intro c hc
        exact digit c (List.mem_of_mem_take (i := n + 1) hc)
      · intro c hc
        exact digit c (List.mem_of_mem_drop hc)
    · split
      · -- zeros stand between the point and the digits
        refine ⟨⟨?_, '0', _, rfl, rfl⟩, Or.inl (by simp)⟩
        exact List.forall_mem_append.mpr ⟨List.forall_mem_append.mpr
          ⟨List.all_eq_true.mp rfl, zeros _⟩, digit⟩
      · cases ds with
        | nil =>
            refine ⟨⟨?_, d, _, rfl, first⟩, Or.inr (by simp)⟩
            exact List.forall_mem_cons.mpr ⟨digit d (List.mem_cons_self ..), mark⟩
        | cons d' ds =>
            refine ⟨⟨?_, d, _, rfl, first⟩, Or.inl (by simp)⟩
            obtain ⟨hd, hrest⟩ := List.forall_mem_cons.mp digit
            exact List.forall_mem_cons.mpr ⟨hd, List.forall_mem_cons.mpr ⟨rfl,
              List.forall_mem_append.mpr ⟨hrest, mark⟩⟩⟩

/-- The text of a floating-point number is told from that of an integer by a point or an
exponent. -/
theorem isLexeme_text (bits : UInt64) :
    IsLexeme (text bits) ∧ ('.' ∈ text bits ∨ 'e' ∈ text bits) := by
  have signed : ∀ {cs : List Char}, IsLexeme cs ∧ ('.' ∈ cs ∨ 'e' ∈ cs) →
      IsLexeme ((if bits.toNat < 2 ^ 63 then [] else ['-']) ++ cs) ∧
        ('.' ∈ (if bits.toNat < 2 ^ 63 then [] else ['-']) ++ cs ∨
          'e' ∈ (if bits.toNat < 2 ^ 63 then [] else ['-']) ++ cs) := by
    rintro cs ⟨hlexeme, hpoint⟩
    split
    · exact ⟨hlexeme, hpoint⟩
    · refine ⟨isLexeme_neg hlexeme, hpoint.imp ?_ ?_⟩
      · exact List.mem_cons_of_mem _
      · exact List.mem_cons_of_mem _
  unfold text
  simp only
  split
  · exact signed ⟨⟨List.all_eq_true.mp rfl, '0', _, rfl, rfl⟩, Or.inl (by decide)⟩
  · apply signed
    obtain ⟨d, ds, h, -⟩ := toDigits_eq_cons
      (trim (Binary.ofBits bits).shortest.1 (Binary.ofBits bits).shortest.2 17).1
    rw [h]
    apply isLexeme_layOut
    intro c hc
    rw [← h] at hc
    exact isDigit_of_mem_toDigits hc

end Shortest

/-! ### Numbers -/

namespace Number

theorem isLexeme_chars (n : Number) : IsLexeme n.chars := by
  cases n with
  | integer value =>
      cases value with
      | ofNat k => exact isLexeme_toDigits k
      | negSucc k => exact isLexeme_neg (isLexeme_toDigits (k + 1))
  | float bits => exact (Shortest.isLexeme_text bits).1

/-- The text of an integer has neither point nor exponent. -/
theorem not_pointed_of_integer (value : Int) :
    ¬ ('.' ∈ (integer value).chars ∨ 'e' ∈ (integer value).chars) := by
  have plain : ∀ n, ¬ ('.' ∈ Nat.toDigits 10 n ∨ 'e' ∈ Nat.toDigits 10 n) := by
    rintro n (h | h)
    · exact absurd (isDigit_of_mem_toDigits h) (by decide)
    · exact absurd (isDigit_of_mem_toDigits h) (by decide)
  cases value with
  | ofNat k => exact plain k
  | negSucc k =>
      simp only [chars, List.mem_cons, Char.reduceEq, false_or]
      exact plain (k + 1)

theorem integer_inj {v w : Int} (h : (integer v).chars = (integer w).chars) : v = w := by
  have minus : ∀ m n, Nat.toDigits 10 m ≠ '-' :: Nat.toDigits 10 n := by
    intro m n h
    have hmem : '-' ∈ Nat.toDigits 10 m := h ▸ List.mem_cons_self ..
    exact absurd (isDigit_of_mem_toDigits hmem) (by decide)
  cases v with
  | ofNat m =>
      cases w with
      | ofNat n => rw [toDigits_inj h]
      | negSucc n => exact absurd h (minus m (n + 1))
  | negSucc m =>
      cases w with
      | ofNat n => exact absurd h.symm (minus n (m + 1))
      | negSucc n =>
          have := toDigits_inj (List.cons.inj h).2
          rw [Nat.succ.inj this]

end Number

/-! ### Strings -/

/-- The characters that are not written as they are. -/
def escapedChars : List Char :=
  '"' :: '\\' :: (List.range 32).map Char.ofNat

theorem escapeChar_of_not_mem {c : Char} (h : c ∉ escapedChars) : escapeChar c = [c] := by
  have hcontrol : ¬ c.toNat < 0x20 := by
    intro hlt
    apply h
    refine List.mem_cons_of_mem _ (List.mem_cons_of_mem _ (List.mem_map.mpr ⟨c.toNat, ?_, ?_⟩))
    · exact List.mem_range.mpr hlt
    · exact Char.ofNat_toNat c
  have hne : ∀ d ∈ escapedChars, c ≠ d := fun d hd heq => h (heq ▸ hd)
  unfold escapeChar
  rw [if_neg (hne _ (by decide)), if_neg (hne _ (by decide)), if_neg (hne _ (by decide)),
    if_neg (hne _ (by decide)), if_neg (hne _ (by decide)), if_neg (hne _ (by decide)),
    if_neg (hne _ (by decide)), if_neg hcontrol]

/-- The escaped characters are written behind a backslash, and none of their texts begins
another. -/
theorem escapeChar_of_mem :
    (∀ c ∈ escapedChars, (escapeChar c).head? = some '\\') ∧
      ∀ c ∈ escapedChars, ∀ d ∈ escapedChars, escapeChar c <+: escapeChar d → c = d := by
  have behind : escapedChars.all (fun c => (escapeChar c).head? == some '\\') = true := by
    decide +kernel
  have apart : escapedChars.all (fun c => escapedChars.all fun d =>
      !(escapeChar c).isPrefixOf (escapeChar d) || c == d) = true := by
    decide +kernel
  constructor
  · intro c hc
    exact beq_iff_eq.mp (List.all_eq_true.mp behind c hc)
  · intro c hc d hd hp
    have h := List.all_eq_true.mp (List.all_eq_true.mp apart c hc) d hd
    rw [List.isPrefixOf_iff_prefix.mpr hp, Bool.not_true, Bool.false_or] at h
    exact beq_iff_eq.mp h

/-- A character's text says itself where it ends, and tells the character. -/
theorem escapeChar_append_inj {c d : Char} {r s : List Char}
    (h : escapeChar c ++ r = escapeChar d ++ s) : c = d ∧ r = s := by
  have same : c = d := by
    -- an escaped character and one that is written as it is begin differently
    have apart : ∀ {c d : Char} {r s : List Char}, c ∈ escapedChars → d ∉ escapedChars →
        escapeChar c ++ r ≠ escapeChar d ++ s := by
      intro c d r s hc hd heq
      have hhead := congrArg List.head? heq
      rw [escapeChar_of_not_mem hd, List.head?_append, escapeChar_of_mem.1 c hc] at hhead
      obtain rfl := Option.some.inj hhead
      exact hd (by decide)
    by_cases hc : c ∈ escapedChars
    · by_cases hd : d ∈ escapedChars
      · have hprefix : escapeChar c <+: escapeChar d ++ s := ⟨r, h⟩
        rcases List.prefix_or_prefix_of_prefix hprefix (List.prefix_append _ s) with hp | hp
        · exact escapeChar_of_mem.2 c hc d hd hp
        · exact (escapeChar_of_mem.2 d hd c hc hp).symm
      · exact absurd h (apart hc hd)
    · by_cases hd : d ∈ escapedChars
      · exact absurd h.symm (apart hd hc)
      · rw [escapeChar_of_not_mem hc, escapeChar_of_not_mem hd] at h
        exact (List.cons.inj h).1
  subst same
  exact ⟨rfl, List.append_cancel_left h⟩

/-- No character's text begins with a quote. -/
theorem escapeChar_append_ne_quote (c : Char) (r s : List Char) :
    escapeChar c ++ r ≠ '"' :: s := by
  intro h
  have hhead := congrArg List.head? h
  by_cases hc : c ∈ escapedChars
  · rw [List.head?_append, escapeChar_of_mem.1 c hc] at hhead
    exact absurd (Option.some.inj hhead) (by decide)
  · rw [escapeChar_of_not_mem hc] at hhead
    obtain rfl := Option.some.inj hhead
    exact hc (by decide)

/-- **A string's text says itself where it ends**, and tells the string. -/
theorem quote_append_inj {s t : String} {r r' : List Char} (h : quote s ++ r = quote t ++ r') :
    s = t ∧ r = r' := by
  have inner : ∀ (cs ds : List Char),
      cs.flatMap escapeChar ++ '"' :: r = ds.flatMap escapeChar ++ '"' :: r' →
        cs = ds ∧ r = r' := by
    intro cs
    induction cs with
    | nil =>
        rintro (_ | ⟨d, ds⟩) h
        · exact ⟨rfl, (List.cons.inj h).2⟩
        · rw [List.flatMap_cons, List.append_assoc] at h
          exact absurd h.symm (escapeChar_append_ne_quote d _ _)
    | cons c cs ih =>
        rintro (_ | ⟨d, ds⟩) h
        · rw [List.flatMap_cons, List.append_assoc] at h
          exact absurd h (escapeChar_append_ne_quote c _ _)
        · rw [List.flatMap_cons, List.flatMap_cons, List.append_assoc, List.append_assoc] at h
          obtain ⟨rfl, hrest⟩ := escapeChar_append_inj h
          obtain ⟨rfl, hend⟩ := ih ds hrest
          exact ⟨rfl, hend⟩
  simp only [quote, List.cons_append, List.append_assoc, List.nil_append] at h
  obtain ⟨hchars, hrest⟩ := inner s.toList t.toList (List.cons.inj h).2
  exact ⟨String.toList_injective hchars, hrest⟩

end StylePrint.Json
