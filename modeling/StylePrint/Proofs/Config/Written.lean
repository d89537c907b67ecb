import StylePrint.Config
import StylePrint.Proofs.Json.Integer
import StylePrint.Proofs.Text.Percent
/-!
Configuration files as they are written. An option has a key and a truth value, an integer of 64
bits or a text (`Config.Scalar`), and a file writes options one on a line (`Config.Writes`). The
same options are written in many ways: with quotes around a key or without, a character as it is or
escaped, an integer in one of four bases and with underscores, blanks and comments wherever a line
has room for them. `Config.write` takes one of these ways, so all options can be written
(`Config.writes_write`). The forms of TOML that the reader leaves out are not among them.
-/

namespace StylePrint.Config

open Text.Percent (IsHexDigit)

/-- The value of an option. -/
inductive Scalar where
  | truth (value : Bool)
  | integer (value : Int64)
  | text (value : String)
  deriving DecidableEq, Repr

/-- The JSON of a value. -/
def Scalar.toJson : Scalar → Json
  | .truth value => .bool value
  | .integer value => .number (.integer value.toInt)
  | .text value => .string value

/-- The member of a JSON object for an option. -/
def member (entry : String × Scalar) : String × Json :=
  (entry.1, entry.2.toJson)

/-! ### Integers -/

/-- Digits of a base that write a natural number, letters in either case. -/
inductive Digits (base : Nat) : List Char → Nat → Prop where
  | none : Digits base [] 0
  | next {cs : List Char} {n v : Nat} {c : Char} (before : Digits base cs n) (hv : v < base)
      (hc : IsHexDigit v c) : Digits base (cs ++ [c]) (n * base + v)

/-- Digits of a base with underscores that stand singly between them. -/
def Grouped (base : Nat) (cs : List Char) (n : Nat) : Prop :=
  ∃ groups : List (List Char), groups ≠ [] ∧ (∀ group ∈ groups, group ≠ []) ∧
    cs = ['_'].intercalate groups ∧ Digits base groups.flatten n

/-- The ways to write a natural number without a sign: no zero stands in front of other digits. -/
structure Decimal (cs : List Char) (n : Nat) : Prop where
  grouped : Grouped 10 cs n
  leads (c : Char) (rest : List Char) : cs ≠ '0' :: c :: rest

/-- The letters that name a base. -/
def bases : List (Char × Nat) := [('x', 16), ('o', 8), ('b', 2)]

/-- The ways to write an integer. -/
inductive IntegerForm : List Char → Int → Prop where
  | unsigned {cs : List Char} {n : Nat} : Decimal cs n → IntegerForm cs n
  | plus {cs : List Char} {n : Nat} : Decimal cs n → IntegerForm ('+' :: cs) n
  | minus {cs : List Char} {n : Nat} : Decimal cs n → IntegerForm ('-' :: cs) (-n)
  | based {letter : Char} {base : Nat} {cs : List Char} {n : Nat} : (letter, base) ∈ bases →
      Grouped base cs n → IntegerForm ('0' :: letter :: cs) n

/-! ### Strings -/

/-- The letters of the short escapes, each with the character it stands for. -/
def escapes : List (Char × Char) :=
  [('b', '\x08'), ('t', '\t'), ('n', '\n'), ('f', '\x0c'), ('r', '\r'), ('"', '"'), ('\\', '\\')]

/-- The ways to write a character between quotes. -/
inductive CharForm (c : Char) : List Char → Prop where
  | plain : isControl c = false → c ≠ '"' → c ≠ '\\' → CharForm c [c]
  | letter {letter : Char} : (letter, c) ∈ escapes → CharForm c ['\\', letter]
  | short {digits : List Char} : digits.length = 4 → Digits 16 digits c.toNat →
      CharForm c ('\\' :: 'u' :: digits)
  | long {digits : List Char} : digits.length = 8 → Digits 16 digits c.toNat →
      CharForm c ('\\' :: 'U' :: digits)

/-- The ways to write characters behind a quote, up to the next one. -/
inductive QuotedForm : List Char → List Char → Prop where
  | close : QuotedForm ['"'] []
  | next {c : Char} {form rest cs : List Char} : CharForm c form → QuotedForm rest cs →
      QuotedForm (form ++ rest) (c :: cs)

/-! ### Lines -/

/-- The ways to write a key. -/
inductive KeyForm : List Char → String → Prop where
  | bare {cs : List Char} : cs ≠ [] → (∀ c ∈ cs, isBareKeyChar c = true) →
      KeyForm cs (String.ofList cs)
  | quoted {form cs : List Char} : QuotedForm form cs → KeyForm ('"' :: form) (String.ofList cs)

/-- The ways to write a value. -/
inductive ValueForm : List Char → Scalar → Prop where
  | yes : ValueForm ['t', 'r', 'u', 'e'] (.truth true)
  | no : ValueForm ['f', 'a', 'l', 's', 'e'] (.truth false)
  | integer {cs : List Char} {n : Int64} : IntegerForm cs n.toInt → ValueForm cs (.integer n)
  | text {form cs : List Char} : QuotedForm form cs →
      ValueForm ('"' :: form) (.text (String.ofList cs))

/-- Any number of blanks. -/
def Blanks (cs : List Char) : Prop :=
  ∀ c ∈ cs, isBlank c = true

/-- The ways to end a line: with nothing or a comment, and blanks in front. -/
inductive Ending : List Char → Prop where
  | nothing : Ending []
  | comment {cs : List Char} : (∀ c ∈ cs, isControl c = false) → Ending ('#' :: cs)
  | blank {c : Char} {cs : List Char} : isBlank c = true → Ending cs → Ending (c :: cs)

/-- The ways to write a line: with an option or without. -/
inductive LineForm : List Char → Option (String × Scalar) → Prop where
  | idle {cs : List Char} : Ending cs → LineForm cs none
  | entry {margin key gap lead value ending : List Char} {name : String} {scalar : Scalar} :
      Blanks margin → KeyForm key name → Blanks gap → Blanks lead → ValueForm value scalar →
      Ending ending →
      LineForm (margin ++ (key ++ (gap ++ '=' :: (lead ++ (value ++ ending)))))
        (some (name, scalar))

/-- The ways to write lines that have options, in order. -/
inductive LinesForm : List Char → List (String × Scalar) → Prop where
  | last {cs : List Char} {entry : Option (String × Scalar)} : LineForm cs entry →
      LinesForm cs entry.toList
  | next {cs lineBreak rest : List Char} {entry : Option (String × Scalar)}
      {entries : List (String × Scalar)} : LineForm cs entry →
      lineBreak = ['\n'] ∨ lineBreak = ['\r', '\n'] → LinesForm rest entries →
      LinesForm (cs ++ (lineBreak ++ rest)) (entry.toList ++ entries)

/-- Whether a file writes options, in order. A byte order mark may stand in front. -/
def Writes (text : String) (entries : List (String × Scalar)) : Prop :=
  ∃ cs, (text.toList = cs ∨ text.toList = '\uFEFF' :: cs) ∧ LinesForm cs entries

/-! ### One way to write -/

/-- A character between quotes, escaped where it must be. -/
def quoteChar (c : Char) : List Char :=
  if c = '"' ∨ c = '\\' then ['\\', c]
  else if isControl c then
    ['\\', 'u', '0', '0', Json.hexDigit (c.toNat / 16), Json.hexDigit (c.toNat % 16)]
  else [c]

/-- A string in quotes. -/
def quote (s : String) : List Char :=
  '"' :: (s.toList.flatMap quoteChar ++ ['"'])

/-- An integer in decimal digits, with a sign when it is negative. -/
def decimalChars (n : Int) : List Char :=
  if n < 0 then '-' :: Nat.toDigits 10 n.natAbs else Nat.toDigits 10 n.natAbs

/-- The text of a value. -/
def Scalar.chars : Scalar → List Char
  | .truth true => ['t', 'r', 'u', 'e']
  | .truth false => ['f', 'a', 'l', 's', 'e']
  | .integer value => decimalChars value.toInt
  | .text value => quote value

/-- The line of an option. -/
def lineOf (entry : String × Scalar) : List Char :=
  quote entry.1 ++ [' ', '=', ' '] ++ entry.2.chars

/-- A file with a line for each option. -/
def write (entries : List (String × Scalar)) : String :=
  String.ofList (entries.flatMap fun entry => lineOf entry ++ ['\n'])

theorem digits_toDigits (n : Nat) : Digits 10 (Nat.toDigits 10 n) n := by
  induction n using Nat.strongRecOn with
  | ind n ih =>
      have hdigit : ∀ v < 10, Nat.digitChar v = Json.hexDigit v := by decide
      by_cases hn : n < 10
      · rw [Nat.toDigits_of_lt_base hn]
        have hone := Digits.none.next hn (.inl (hdigit n hn))
        simpa using hone
      · have hlast : n % 10 < 10 := Nat.mod_lt n (by decide)
        have hbefore := ih (n / 10) (Nat.div_lt_self (by omega) (by decide))
        rw [Nat.toDigits_of_base_le (by decide) (Nat.le_of_not_lt hn)]
        have hnext := hbefore.next hlast (.inl (hdigit _ hlast))
        rwa [Nat.div_add_mod'] at hnext

theorem decimal_toDigits (n : Nat) : Decimal (Nat.toDigits 10 n) n where
  grouped := ⟨[Nat.toDigits 10 n], List.cons_ne_nil _ _, by simp, by simp, by
    simpa using digits_toDigits n⟩
  leads := Json.Numeral.toDigits_ne_zero_cons n

theorem integerForm_decimalChars (n : Int) : IntegerForm (decimalChars n) n := by
  have hdecimal := decimal_toDigits n.natAbs
  unfold decimalChars
  split
  · rename_i hnegative
    have hform := IntegerForm.minus hdecimal
    rwa [show -((n.natAbs : Nat) : Int) = n by omega] at hform
  · rename_i hnatural
    have hform := IntegerForm.unsigned hdecimal
    rwa [show ((n.natAbs : Nat) : Int) = n by omega] at hform

theorem digits_zeros : Digits 16 ['0', '0'] 0 :=
  (Digits.none.next (v := 0) (by decide) (.inl rfl)).next (v := 0) (by decide) (.inl rfl)

theorem charForm_quoteChar (c : Char) : CharForm c (quoteChar c) := by
  unfold quoteChar
  split
  · rename_i hc
    rcases hc with rfl | rfl
    · exact .letter (by decide)
    · exact .letter (by decide)
  · rename_i hc
    rw [not_or] at hc
    split
    · rename_i hcontrol
      have hsmall : c.toNat < 128 := by
        simp only [isControl, Bool.or_eq_true, Bool.and_eq_true, decide_eq_true_eq] at hcontrol
        omega
      have hdigits := (digits_zeros.next (v := c.toNat / 16) (by omega) (.inl rfl)).next
        (v := c.toNat % 16) (by omega) (.inl rfl)
      rw [Nat.zero_mul, Nat.zero_add, Nat.div_add_mod'] at hdigits
      exact .short rfl hdigits
    · rename_i hcontrol
      exact .plain (by simpa using hcontrol) hc.1 hc.2

theorem quotedForm_flatMap (cs : List Char) :
    QuotedForm (cs.flatMap quoteChar ++ ['"']) cs := by
  induction cs with
  | nil => exact .close
  | cons c cs ih =>
      rw [List.flatMap_cons, List.append_assoc]
      exact .next (charForm_quoteChar c) ih

theorem keyForm_quote (s : String) : KeyForm (quote s) s := by
  have hform := KeyForm.quoted (quotedForm_flatMap s.toList)
  rwa [String.ofList_toList] at hform

theorem valueForm_chars (scalar : Scalar) : ValueForm scalar.chars scalar := by
  cases scalar with
  | truth value =>
      cases value with
      | true => exact .yes
      | false => exact .no
  | integer value => exact .integer (integerForm_decimalChars value.toInt)
  | text value =>
      have hform := ValueForm.text (quotedForm_flatMap value.toList)
      rwa [String.ofList_toList] at hform

theorem lineForm_lineOf (entry : String × Scalar) : LineForm (lineOf entry) (some entry) := by
  have hmargin : Blanks [] := nofun
  have hblank : Blanks [' '] := by simp [Blanks, isBlank]
  have hform := LineForm.entry hmargin (keyForm_quote entry.1) hblank hblank
    (valueForm_chars entry.2) .nothing
  simpa [lineOf] using hform

/-- **All options can be written.** -/
theorem writes_write (entries : List (String × Scalar)) : Writes (write entries) entries := by
  refine ⟨_, .inl (String.toList_ofList ..), ?_⟩
  induction entries with
  | nil => exact .last (.idle .nothing)
  | cons entry rest ih =>
      rw [List.flatMap_cons, List.append_assoc]
      exact .next (lineForm_lineOf entry) (.inl rfl) ih

end StylePrint.Config
