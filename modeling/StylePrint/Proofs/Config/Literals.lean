import StylePrint.Proofs.Config.Written
import StylePrint.Proofs.Separated
/-!
Numbers and strings of a configuration file. Whatever way they are written they are read as what
they say (`IntegerForm.integer?_eq`), a string with the rest of the line left behind it
(`QuotedForm.quoted?_append`). None of these ways needs a control character
(`IntegerForm.mem`, `QuotedForm.uncontrolled`), so they all stay on one line.
-/

namespace StylePrint.Config

open Text.Percent (IsHexDigit)

/-! ### Characters -/

/-- A character of a key without quotes is a printed one. -/
theorem toNat_of_isBareKeyChar {c : Char} (h : isBareKeyChar c = true) :
    45 ≤ c.toNat ∧ c.toNat ≤ 122 := by
  simp only [isBareKeyChar, Bool.or_eq_true, decide_eq_true_eq] at h
  rcases h with (h | rfl) | rfl
  · have hranges : c.isAlphanum = (decide (65 ≤ c.val ∧ c.val ≤ 90) ||
        (decide (97 ≤ c.val) && decide (c.val ≤ 122)) ||
        (decide (48 ≤ c.val) && decide (c.val ≤ 57))) := rfl
    simp [hranges, UInt32.le_iff_toNat_le] at h
    omega
  · decide
  · decide

theorem isControl_of_isBareKeyChar {c : Char} (h : isBareKeyChar c = true) :
    isControl c = false := by
  have hrange := toNat_of_isBareKeyChar h
  have hlow : ¬c.toNat < 0x20 := by omega
  have hhigh : c.toNat ≠ 0x7F := by omega
  simp [isControl, hlow, hhigh]

theorem isBareKeyChar_of_isHexDigit {v : Nat} (hv : v < 16) {c : Char} (h : IsHexDigit v c) :
    isBareKeyChar c = true ∧ c ≠ '_' :=
  h.of_forall (p := fun _ c => isBareKeyChar c = true ∧ c ≠ '_') (by decide) hv

theorem isDigit_of_isHexDigit {v : Nat} (hv : v < 10) {c : Char} (h : IsHexDigit v c) :
    c.isDigit = true :=
  h.of_forall (p := fun _ c => c.isDigit = true) (by decide) hv

/-! ### Digits -/

/-- A digit is read in every base that has it. -/
theorem digit?_of_isHexDigit {base v : Nat} (hbase : base ≤ 16) (hv : v < base) {c : Char}
    (h : IsHexDigit v c) : digit? base c = some v := by
  have hread := Text.Percent.hexDigit?_of_isHexDigit (Nat.lt_of_lt_of_le hv hbase) h
  simp only [Text.Percent.hexDigit?] at hread
  have hvalue : (if 48 ≤ c.toNat ∧ c.toNat ≤ 57 then c.toNat - 48
      else if 97 ≤ c.toNat ∧ c.toNat ≤ 102 then c.toNat - 87
      else if 65 ≤ c.toNat ∧ c.toNat ≤ 70 then c.toNat - 55
      else base) = v := by
    split_ifs at hread ⊢ <;> exact Option.some.inj hread
  simp only [digit?, hvalue, if_pos hv]

theorem Digits.number?_eq {base : Nat} (hbase : base ≤ 16) {cs : List Char} {n : Nat}
    (h : Digits base cs n) : number? base cs = some n := by
  induction h with
  | none => rfl
  | next before hv hc ih =>
      rw [number?] at ih ⊢
      rw [List.foldlM_append, ih]
      simp [digit?_of_isHexDigit hbase hv hc]

/-- What the digits of a base have in common, all digits of a number in that base have. -/
theorem Digits.forall_mem {base : Nat} {p : Char → Prop}
    (hp : ∀ v < base, ∀ c, IsHexDigit v c → p c) {cs : List Char} {n : Nat}
    (h : Digits base cs n) : ∀ c ∈ cs, p c := by
  induction h with
  | none => exact nofun
  | next before hv hc ih => exact List.forall_mem_append.mpr ⟨ih, by simpa using hp _ hv _ hc⟩

theorem Digits.mem {base : Nat} (hbase : base ≤ 16) {cs : List Char} {n : Nat}
    (h : Digits base cs n) : ∀ c ∈ cs, isBareKeyChar c = true ∧ c ≠ '_' :=
  h.forall_mem fun _ hv _ => isBareKeyChar_of_isHexDigit (Nat.lt_of_lt_of_le hv hbase)

theorem Digits.isDigit {cs : List Char} {n : Nat} (h : Digits 10 cs n) :
    ∀ c ∈ cs, c.isDigit = true :=
  h.forall_mem fun _ hv _ => isDigit_of_isHexDigit hv

/-- The character that the digits of its code point write. -/
theorem Digits.codePoint?_eq {cs : List Char} {c : Char} (h : Digits 16 cs c.toNat) :
    codePoint? cs = some c := by
  have hvalid : c.toNat.isValidChar := c.valid
  simp [codePoint?, h.number?_eq (Nat.le_refl 16), hvalid]

section

variable {base n : Nat} {cs : List Char}

/-- Underscores between digits are left out. -/
theorem Grouped.number?_eq (hbase : base ≤ 16) (h : Grouped base cs n) :
    (ungrouped? cs).bind (number? base) = some n := by
  obtain ⟨groups, hne, hgroups, rfl, hdigits⟩ := h
  have hsplit : (['_'].intercalate groups).splitOn '_' = groups := by
    refine List.splitOn_intercalate '_' (fun group hgroup hmem => ?_) hne
    exact (hdigits.mem hbase '_' (List.mem_flatten.mpr ⟨group, hgroup, hmem⟩)).2 rfl
  have hall : (groups.all fun group => !group.isEmpty) = true := by
    simpa [List.all_eq_true, List.isEmpty_eq_false_iff] using hgroups
  rw [ungrouped?, hsplit]
  simp only [hall, if_pos, Option.bind_some]
  exact hdigits.number?_eq hbase

theorem Grouped.mem (hbase : base ≤ 16) (h : Grouped base cs n) :
    ∀ c ∈ cs, isBareKeyChar c = true := by
  obtain ⟨groups, -, -, rfl, hdigits⟩ := h
  intro c hc
  rcases List.mem_of_mem_intercalate hc with hc | ⟨group, hgroup, hc⟩
  · obtain rfl := List.mem_singleton.mp hc
    rfl
  · exact (hdigits.mem hbase c (List.mem_flatten.mpr ⟨group, hgroup, hc⟩)).1

/-- A number begins with a digit. -/
theorem Decimal.begins (h : Decimal cs n) : ∃ c rest, cs = c :: rest ∧ c.isDigit = true := by
  obtain ⟨groups, hne, hgroups, hcs, hdigits⟩ := h.grouped
  obtain ⟨first, others, rfl⟩ := List.exists_cons_of_ne_nil hne
  obtain ⟨c, rest, hfirst⟩ := List.exists_cons_of_ne_nil (hgroups first List.mem_cons_self)
  subst hfirst
  have hdigit : c.isDigit = true :=
    hdigits.isDigit c (List.mem_flatten.mpr ⟨_, List.mem_cons_self, List.mem_cons_self⟩)
  cases others with
  | nil => exact ⟨c, rest, by rw [hcs, List.intercalate_singleton], hdigit⟩
  | cons second others =>
      rw [List.intercalate_cons_cons, List.append_assoc, List.cons_append] at hcs
      exact ⟨c, _, hcs, hdigit⟩

theorem Decimal.natural?_eq (h : Decimal cs n) : natural? cs = some n := by
  unfold natural?
  split
  · rename_i c rest
    exact absurd rfl (h.leads c rest)
  · exact h.grouped.number?_eq (by decide)

end

/-! ### Integers -/

section

variable {cs : List Char} {n : Int}

theorem base_le {letter : Char} {base : Nat} (h : (letter, base) ∈ bases) : base ≤ 16 := by
  simp only [bases, List.mem_cons, List.not_mem_nil, or_false, Prod.mk.injEq] at h
  omega

/-- An integer begins with a digit or a sign. -/
theorem IntegerForm.begins (h : IntegerForm cs n) :
    ∃ c rest, cs = c :: rest ∧ (c.isDigit = true ∨ c = '+' ∨ c = '-') := by
  cases h with
  | unsigned h =>
      obtain ⟨c, rest, rfl, hc⟩ := h.begins
      exact ⟨c, rest, rfl, .inl hc⟩
  | plus => exact ⟨'+', _, rfl, .inr (.inl rfl)⟩
  | minus => exact ⟨'-', _, rfl, .inr (.inr rfl)⟩
  | based => exact ⟨'0', _, rfl, .inl rfl⟩

theorem IntegerForm.mem (h : IntegerForm cs n) : ∀ c ∈ cs, isBareKeyChar c = true ∨ c = '+' := by
  have hten : 10 ≤ 16 := by decide
  intro c hc
  cases h with
  | unsigned h => exact .inl (h.grouped.mem hten c hc)
  | plus h => exact (List.mem_cons.mp hc).symm.imp_left (h.grouped.mem hten c)
  | minus h =>
      rcases List.mem_cons.mp hc with rfl | hc
      · exact .inl rfl
      · exact .inl (h.grouped.mem hten c hc)
  | based hbase h =>
      rcases List.mem_cons.mp hc with rfl | hc
      · exact .inl rfl
      · rcases List.mem_cons.mp hc with rfl | hc
        · have hletter : ∀ entry ∈ bases, isBareKeyChar entry.1 = true := by decide
          exact .inl (hletter _ hbase)
        · exact .inl (h.mem (base_le hbase) c hc)

theorem unbounded?_of_decimal {m : Nat} (h : Decimal cs m) : unbounded? cs = some (m : Int) := by
  obtain ⟨c, rest, hcs, hdigit⟩ := h.begins
  unfold unbounded?
  split
  · exact absurd rfl (h.leads _ _)
  · exact absurd rfl (h.leads _ _)
  · exact absurd rfl (h.leads _ _)
  · obtain ⟨rfl, -⟩ := List.cons.inj hcs
    cases hdigit
  · obtain ⟨rfl, -⟩ := List.cons.inj hcs
    cases hdigit
  · rw [h.natural?_eq]
    rfl

theorem IntegerForm.unbounded?_eq (h : IntegerForm cs n) : unbounded? cs = some n := by
  cases h with
  | unsigned h => exact unbounded?_of_decimal h
  | plus h =>
      simp only [unbounded?, h.natural?_eq]
      rfl
  | minus h =>
      simp only [unbounded?, h.natural?_eq]
      rfl
  | based hbase h =>
      have hread := h.number?_eq (base_le hbase)
      simp only [bases, List.mem_cons, List.not_mem_nil, or_false, Prod.mk.injEq] at hbase
      obtain ⟨digits, hdigits, hnumber⟩ := Option.bind_eq_some_iff.mp hread
      rcases hbase with ⟨rfl, rfl⟩ | ⟨rfl, rfl⟩ | ⟨rfl, rfl⟩ <;>
        simp [unbounded?, hdigits, hnumber]

/-- **An integer of 64 bits is read back**, however it is written. -/
theorem IntegerForm.integer?_eq {value : Int64} (h : IntegerForm cs value.toInt) :
    integer? cs = some value.toInt := by
  have hlow : Int64.minValue.toInt ≤ value.toInt := value.le_toInt
  have hhigh : value.toInt ≤ Int64.maxValue.toInt := Int.le_of_lt_add_one value.toInt_lt
  rw [integer?, h.unbounded?_eq]
  exact if_pos ⟨hlow, hhigh⟩

end

/-! ### Strings -/

section

variable {c : Char} {form cs : List Char}

/-- **A character is read back**, however it is written between quotes. -/
theorem CharForm.quoted?_append (h : CharForm c form) (rest : List Char) :
    quoted? (form ++ rest) = (quoted? rest).map fun read => (c :: read.1, read.2) := by
  have hread : ∀ first : Option Char, first = some c →
      (first.bind fun first => (quoted? rest).bind fun read => some (first :: read.1, read.2))
        = (quoted? rest).map fun read => (c :: read.1, read.2) := by
    rintro _ rfl
    cases quoted? rest <;> rfl
  cases h with
  | plain hcontrol hquote hescape =>
      show quoted? (c :: rest) = _
      rw [quoted?]
      · rw [if_neg (by simp [hescape, hcontrol])]
        exact hread _ rfl
      · exact hquote
      all_goals
        intros
        contradiction
  | letter hletter =>
      simp only [escapes, List.mem_cons, List.not_mem_nil, or_false, Prod.mk.injEq] at hletter
      rcases hletter with ⟨rfl, rfl⟩ | ⟨rfl, rfl⟩ | ⟨rfl, rfl⟩ | ⟨rfl, rfl⟩ | ⟨rfl, rfl⟩ |
        ⟨rfl, rfl⟩ | ⟨rfl, rfl⟩ <;> exact hread _ rfl
  | @short digits hlength hdigits =>
      match digits, hlength with
      | [_, _, _, _], _ => exact hread _ hdigits.codePoint?_eq
  | @long digits hlength hdigits =>
      match digits, hlength with
      | [_, _, _, _, _, _, _, _], _ => exact hread _ hdigits.codePoint?_eq

/-- **A string is read back**, however it is written in quotes, and what is behind it is left. -/
theorem QuotedForm.quoted?_append (h : QuotedForm form cs) (rest : List Char) :
    quoted? (form ++ rest) = some (cs, rest) := by
  induction h with
  | close => rfl
  | next hc _ ih => rw [List.append_assoc, hc.quoted?_append, ih, Option.map_some]

theorem CharForm.uncontrolled (h : CharForm c form) : ∀ d ∈ form, isControl d = false := by
  have hdigits {digits : List Char} {n : Nat} (hdigits : Digits 16 digits n) :
      ∀ d ∈ digits, isControl d = false := fun d hd =>
    isControl_of_isBareKeyChar (hdigits.mem (Nat.le_refl 16) d hd).1
  cases h with
  | plain hcontrol => simpa using hcontrol
  | letter hletter =>
      have hescapes : ∀ entry ∈ escapes, isControl entry.1 = false := by decide
      simpa [show isControl '\\' = false from rfl] using hescapes _ hletter
  | short _ h => exact List.forall_mem_cons.mpr ⟨rfl, List.forall_mem_cons.mpr ⟨rfl, hdigits h⟩⟩
  | long _ h => exact List.forall_mem_cons.mpr ⟨rfl, List.forall_mem_cons.mpr ⟨rfl, hdigits h⟩⟩

theorem QuotedForm.uncontrolled (h : QuotedForm form cs) : ∀ d ∈ form, isControl d = false := by
  induction h with
  | close => simp [isControl]
  | next hc _ ih => exact List.forall_mem_append.mpr ⟨hc.uncontrolled, ih⟩

end

end StylePrint.Config
