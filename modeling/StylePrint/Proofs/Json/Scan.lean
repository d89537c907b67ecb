import StylePrint.Json.Token
import StylePrint.Proofs.Json.Float
/-!
The text of a JSON value, cut into tokens again. `Json.tokens` lists the tokens of a value's compact
text, and the scanner finds exactly these (`Json.scan?_chars`). A word or numeral ends where a
separator or the end of the text stands, so a value inside a text is scanned together with what
stands behind it.
-/

namespace StylePrint.Json

/-! ### The tokens of a value -/

mutual

/-- The tokens of a value's text. -/
def tokens : Json → List Token
  | .null => [.null]
  | .bool b => [.bool b]
  | .number n => [.number n.numeral]
  | .string s => [.string (some s)]
  | .array [] => [.openBracket, .closeBracket]
  | .array (item :: rest) =>
    .openBracket :: item.tokens ++ itemTokens rest ++ [.closeBracket]
  | .object [] => [.openBrace, .closeBrace]
  | .object ((name, value) :: rest) =>
    .openBrace :: .string (some name) :: .colon :: value.tokens ++ memberTokens rest
      ++ [.closeBrace]

/-- The tokens of the items after the first, each behind a comma. -/
def itemTokens : List Json → List Token
  | [] => []
  | item :: rest => .comma :: item.tokens ++ itemTokens rest

/-- The tokens of the members after the first, each behind a comma. -/
def memberTokens : List (String × Json) → List Token
  | [] => []
  | (name, value) :: rest =>
    .comma :: .string (some name) :: .colon :: value.tokens ++ memberTokens rest

end

/-! ### Reading on -/

namespace Token

/-- Whether a character ends a word or numeral. -/
def delimits (c : Char) : Bool :=
  isBlank c || c = '"' || (punctuation? c).isSome

/-- Whether a word or numeral ends where these characters begin. -/
def Delimited (cs : List Char) : Prop :=
  ∀ c ∈ cs.head?, delimits c = true

theorem delimited_cons {c : Char} {cs : List Char} (h : delimits c = true) :
    Delimited (c :: cs) := by
  rintro _ ⟨⟩
  exact h

/-- No character of a number ends it. -/
theorem delimits_of_isNumeric {c : Char} (h : isNumeric c = true) : delimits c = false := by
  have apart : ∀ d : Char, isNumeric d = false → c ≠ d := by
    rintro d hd rfl
    rw [h] at hd
    cases hd
  simp [delimits, isBlank, punctuation?, apart _ (show isNumeric ' ' = false from rfl),
    apart _ (show isNumeric '\n' = false from rfl), apart _ (show isNumeric '\t' = false from rfl),
    apart _ (show isNumeric '\r' = false from rfl), apart _ (show isNumeric '"' = false from rfl),
    apart _ (show isNumeric '{' = false from rfl), apart _ (show isNumeric '}' = false from rfl),
    apart _ (show isNumeric '[' = false from rfl), apart _ (show isNumeric ']' = false from rfl),
    apart _ (show isNumeric ':' = false from rfl), apart _ (show isNumeric ',' = false from rfl)]

namespace Scanner

/-- The tokens of a text that a scanner goes on with. -/
def read (s : Scanner) (cs : List Char) : Option (List Token) :=
  (cs.foldlM step s).bind finish

theorem read_cons (s : Scanner) (c : Char) (cs : List Char) :
    s.read (c :: cs) = (s.step c).bind fun s => s.read cs := by
  rw [read, List.foldlM_cons]
  cases s.step c <;> rfl

theorem read_between (done : List Token) (c : Char) (cs : List Char) :
    read ⟨.between, done⟩ (c :: cs) = read (begin done c) cs :=
  read_cons ..

/-! ### Words and numerals -/

theorem begin_of_not_delimits {c : Char} (h : delimits c = false) (done : List Token) :
    begin done c = ⟨.bare [c], done⟩ := by
  simp only [delimits, Bool.or_eq_false_iff, decide_eq_false_iff_not] at h
  obtain ⟨⟨hblank, hquote⟩, hpunctuation⟩ := h
  rw [begin, if_neg (by simp [hblank]), if_neg hquote]
  cases hp : punctuation? c with
  | none => rfl
  | some token =>
      rw [hp] at hpunctuation
      cases hpunctuation

/-- A word or numeral goes on to the next character that ends it. -/
theorem read_run {run : List Char} (hrun : ∀ c ∈ run, delimits c = false) (cs : List Char)
    (done : List Token) (rest : List Char) :
    read ⟨.bare cs, done⟩ (run ++ rest) = read ⟨.bare (run.reverse ++ cs), done⟩ rest := by
  induction run generalizing cs with
  | nil => rfl
  | cons c run ih =>
      obtain ⟨hc, hrun⟩ := List.forall_mem_cons.mp hrun
      have hstep : step ⟨.bare cs, done⟩ c = some ⟨.bare (c :: cs), done⟩ := by
        have hc : ¬(isBlank c = true ∨ c = '"' ∨ (punctuation? c).isSome = true) := by
          simpa [delimits, and_assoc] using hc
        simp only [step, if_neg hc]
      rw [List.cons_append, read_cons, hstep, Option.bind_some, ih hrun]
      simp

/-- A word or numeral ends where a character stands that ends it, or where the text ends. -/
theorem read_bare {cs : List Char} {token : Token} (h : ofBare? cs.reverse = some token)
    (done : List Token) {rest : List Char} (hrest : Delimited rest) :
    read ⟨.bare cs, done⟩ rest = read ⟨.between, token :: done⟩ rest := by
  cases rest with
  | nil =>
      show (ofBare? cs.reverse).bind (fun token => some (token :: done).reverse) = _
      rw [h]
      rfl
  | cons c rest =>
      have hc : isBlank c = true ∨ c = '"' ∨ (punctuation? c).isSome = true := by
        simpa [delimits, or_assoc] using hrest c rfl
      rw [read_cons, read_between]
      simp only [step, if_pos hc, h]
      rfl

/-- A word or numeral is read as its token. -/
theorem read_word {c : Char} {run : List Char} {token : Token}
    (hrun : ∀ d ∈ c :: run, delimits d = false) (h : ofBare? (c :: run) = some token)
    (done : List Token) {rest : List Char} (hrest : Delimited rest) :
    read ⟨.between, done⟩ (c :: run ++ rest) = read ⟨.between, token :: done⟩ rest := by
  obtain ⟨hc, hrun⟩ := List.forall_mem_cons.mp hrun
  rw [List.cons_append, read_between, begin_of_not_delimits hc, read_run hrun]
  exact read_bare (by simpa using h) done hrest

/-- A number's text is read as its numeral. -/
theorem read_number (n : Number) (done : List Token) {rest : List Char}
    (hrest : Delimited rest) :
    read ⟨.between, done⟩ (n.chars ++ rest) = read ⟨.between, .number n.numeral :: done⟩ rest := by
  have hlexeme := n.isLexeme_chars
  obtain ⟨c, run, hchars, hc⟩ := hlexeme.begins
  have hrun : ∀ d ∈ c :: run, delimits d = false := by
    intro d hd
    rw [← hchars] at hd
    exact delimits_of_isNumeric (hlexeme.numeric d hd)
  have hnumeral := n.ofChars?_chars
  rw [hchars] at hnumeral ⊢
  refine read_word hrun ?_ done hrest
  -- the words begin with letters, which no number does
  have hword : ∀ d ds, beginsNumber d = false → c :: run ≠ d :: ds := by
    rintro d ds hd heq
    rw [(List.cons.inj heq).1, hd] at hc
    cases hc
  rw [ofBare?, if_neg (hword _ _ rfl), if_neg (hword _ _ rfl), if_neg (hword _ _ rfl), hnumeral]
  rfl

/-! ### Strings -/

/-- The hexadecimal digits are read as the numbers they are written for. -/
theorem hexValue?_hexDigit {n : Nat} (h : n < 16) : Body.hexValue? (hexDigit n) = some n := by
  have all : ∀ n : Fin 16, Body.hexValue? (hexDigit n) = some n.val := by decide
  exact all ⟨n, h⟩

/-- The last two digits of the escape of a control character are read as the character. -/
theorem read_hexDigits {c : Char} (h : c.toNat < 0x20) (cs : List Char) (done : List Token)
    (rest : List Char) :
    read ⟨.string ⟨cs, true, none, .hex 2 0⟩, done⟩
        (hexDigit (c.toNat / 16) :: hexDigit (c.toNat % 16) :: rest)
      = read ⟨.string ⟨c :: cs, true, none, .none⟩, done⟩ rest := by
  have hhigh : step ⟨.string ⟨cs, true, none, .hex 2 0⟩, done⟩ (hexDigit (c.toNat / 16))
      = some ⟨.string ⟨cs, true, none, .hex 1 (c.toNat / 16)⟩, done⟩ := by
    simp [step, inString, hexValue?_hexDigit (n := c.toNat / 16) (by omega)]
  have hlow : step ⟨.string ⟨cs, true, none, .hex 1 (c.toNat / 16)⟩, done⟩
        (hexDigit (c.toNat % 16))
      = some ⟨.string ⟨c :: cs, true, none, .none⟩, done⟩ := by
    have hunit : c.toNat / 16 * 16 + c.toNat % 16 = c.toNat := by omega
    have hplain : Body.pushUnit ⟨cs, true, none, .hex 1 (c.toNat / 16)⟩ c.toNat
        = ⟨c :: cs, true, none, .none⟩ := by
      rw [Body.pushUnit, if_neg (by omega), if_neg (by omega), Char.ofNat_toNat]
      rfl
    simp [step, inString, hexValue?_hexDigit (n := c.toNat % 16) (by omega), hunit, hplain]
  rw [read_cons, hhigh, Option.bind_some, read_cons, hlow, Option.bind_some]

/-- A character's text inside a string is read as the character. -/
theorem read_escapeChar (c : Char) (cs : List Char) (done : List Token) (rest : List Char) :
    read ⟨.string ⟨cs, true, none, .none⟩, done⟩ (escapeChar c ++ rest)
      = read ⟨.string ⟨c :: cs, true, none, .none⟩, done⟩ rest := by
  by_cases hshort : c ∈ ['"', '\\', '\x08', '\t', '\n', '\x0c', '\r']
  · -- two characters: a backslash, and the one that stands for the escaped character
    simp only [List.mem_cons, List.not_mem_nil, or_false] at hshort
    rcases hshort with rfl | rfl | rfl | rfl | rfl | rfl | rfl <;> rfl
  · simp only [List.mem_cons, List.not_mem_nil, or_false, not_or] at hshort
    obtain ⟨hquote, hslash, hback, htab, hline, hfeed, hreturn⟩ := hshort
    rw [escapeChar, if_neg hquote, if_neg hslash, if_neg hback, if_neg htab, if_neg hline,
      if_neg hfeed, if_neg hreturn]
    by_cases hcontrol : c.toNat < 0x20
    · rw [if_pos hcontrol]
      exact read_hexDigits hcontrol cs done rest
    · rw [if_neg hcontrol, List.cons_append, List.nil_append, read_cons]
      simp only [step, inString, if_neg hquote, if_neg hslash, if_neg hcontrol]
      rfl

/-- A text in quotes is read as a string with that text. -/
theorem read_quote (s : String) (done : List Token) (rest : List Char) :
    read ⟨.between, done⟩ (quote s ++ rest)
      = read ⟨.between, .string (some s) :: done⟩ rest := by
  have inner : ∀ (cs acc : List Char),
      read ⟨.string ⟨acc, true, none, .none⟩, done⟩ (cs.flatMap escapeChar ++ '"' :: rest)
        = read ⟨.between, .string (some (String.ofList (acc.reverse ++ cs))) :: done⟩ rest := by
    intro cs
    induction cs with
    | nil =>
        intro acc
        rw [List.append_nil]
        rfl
    | cons c cs ih =>
        intro acc
        rw [List.flatMap_cons, List.append_assoc, read_escapeChar, ih]
        simp
  have whole := inner s.toList []
  rw [List.reverse_nil, List.nil_append, String.ofList_toList] at whole
  rw [quote, List.cons_append, List.cons_append, List.append_assoc, read_between]
  exact whole

/-! ### Values -/

theorem delimited_itemsTail (items : List Json) (rest : List Char) :
    Delimited (itemsTail items ++ ']' :: rest) := by
  cases items with
  | nil => exact delimited_cons rfl
  | cons item items => exact delimited_cons rfl

theorem delimited_membersTail (members : List (String × Json)) (rest : List Char) :
    Delimited (membersTail members ++ '}' :: rest) := by
  rcases members with _ | ⟨⟨name, value⟩, members⟩
  · exact delimited_cons rfl
  · exact delimited_cons rfl

mutual

/-- **The text of a value is read as its tokens**, whatever ends it. -/
theorem read_chars (done : List Token) {rest : List Char} (hrest : Delimited rest) :
    ∀ j : Json,
      read ⟨.between, done⟩ (j.chars ++ rest) = read ⟨.between, j.tokens.reverse ++ done⟩ rest
  | .null => read_word (by simp [delimits, isBlank, punctuation?]) rfl done hrest
  | .bool true => read_word (by simp [delimits, isBlank, punctuation?]) rfl done hrest
  | .bool false => read_word (by simp [delimits, isBlank, punctuation?]) rfl done hrest
  | .number n => read_number n done hrest
  | .string s => read_quote s done rest
  | .array [] => rfl
  | .array (item :: items) => by
      have hitem := read_chars (.openBracket :: done) (delimited_itemsTail items rest) item
      have hitems := read_itemsTail (item.tokens.reverse ++ .openBracket :: done) rest items
      simp only [chars, tokens, List.cons_append, List.append_assoc, List.nil_append,
        List.reverse_cons, List.reverse_append, List.reverse_nil]
      exact hitem.trans hitems
  | .object [] => rfl
  | .object ((name, value) :: members) => by
      have hname := read_quote name (.openBrace :: done)
        (':' :: (value.chars ++ (membersTail members ++ '}' :: rest)))
      have hvalue := read_chars (.colon :: .string (some name) :: .openBrace :: done)
        (delimited_membersTail members rest) value
      have hmembers := read_membersTail
        (value.tokens.reverse ++ .colon :: .string (some name) :: .openBrace :: done)
        rest members
      simp only [chars, tokens, List.cons_append, List.append_assoc, List.nil_append,
        List.reverse_cons, List.reverse_append, List.reverse_nil]
      exact hname.trans (hvalue.trans hmembers)

/-- The items after the first are read up to the closing bracket. -/
theorem read_itemsTail (done : List Token) (rest : List Char) :
    ∀ items : List Json,
      read ⟨.between, done⟩ (itemsTail items ++ ']' :: rest)
        = read ⟨.between, .closeBracket :: ((itemTokens items).reverse ++ done)⟩ rest
  | [] => rfl
  | item :: items => by
      have hitem := read_chars (.comma :: done) (delimited_itemsTail items rest) item
      have hitems := read_itemsTail (item.tokens.reverse ++ .comma :: done) rest items
      simp only [itemsTail, itemTokens, List.cons_append, List.append_assoc, List.nil_append,
        List.reverse_cons, List.reverse_append]
      exact hitem.trans hitems

/-- The members after the first are read up to the closing brace. -/
theorem read_membersTail (done : List Token) (rest : List Char) :
    ∀ members : List (String × Json),
      read ⟨.between, done⟩ (membersTail members ++ '}' :: rest)
        = read ⟨.between, .closeBrace :: ((memberTokens members).reverse ++ done)⟩ rest
  | [] => rfl
  | (name, value) :: members => by
      have hname := read_quote name (.comma :: done)
        (':' :: (value.chars ++ (membersTail members ++ '}' :: rest)))
      have hvalue := read_chars (.colon :: .string (some name) :: .comma :: done)
        (delimited_membersTail members rest) value
      have hmembers := read_membersTail
        (value.tokens.reverse ++ .colon :: .string (some name) :: .comma :: done)
        rest members
      simp only [membersTail, memberTokens, List.cons_append, List.append_assoc, List.nil_append,
        List.reverse_cons, List.reverse_append]
      exact hname.trans (hvalue.trans hmembers)

end

end Scanner

end Token

/-- **The text of a value is cut into its tokens.** -/
theorem scan?_chars (j : Json) : Token.scan? j.chars = some j.tokens := by
  have hend : Token.Delimited [] := nofun
  have hread := Token.Scanner.read_chars [] hend j
  rw [List.append_nil, List.append_nil] at hread
  calc Token.scan? j.chars
      = Token.Scanner.read ⟨.between, j.tokens.reverse⟩ [] := hread
    _ = some j.tokens.reverse.reverse := rfl
    _ = some j.tokens := by rw [List.reverse_reverse]

end StylePrint.Json
