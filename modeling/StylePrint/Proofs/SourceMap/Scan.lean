import StylePrint.Proofs.Separated
import StylePrint.SourceMap.Segments
/-!
Reading segments from left to right. The reader splits a text into lines first and each line into
segments; `Segments.readOn` reads the same text from any byte on, given the line that byte stands on
and the base reached. A comma, a semicolon and a whole segment each have one equation
(`readOn_comma`, `readOn_semicolons`, `readOn_segment`), so a text can be read in the order in which
it is written.
-/

namespace StylePrint.SourceMap.Segments

/-! ### Splitting -/

/-- What stands before the first separator goes with the first part. -/
theorem splitOn_append_of_not_mem {a : UInt8} {xs : List UInt8} (h : a ∉ xs) (ys : List UInt8) :
    (xs ++ ys).splitOn a = (ys.splitOn a).modifyHead (xs ++ ·) := by
  induction xs with
  | nil =>
      rw [List.nil_append]
      cases ys.splitOn a <;> rfl
  | cons x xs ih =>
      have hx : (x == a) = false := by
        rw [beq_eq_false_iff_ne]
        rintro rfl
        exact h (List.mem_cons_self ..)
      rw [List.cons_append, List.splitOn_cons_eq_if_modifyHead, hx,
        ih (fun hmem => h (List.mem_cons_of_mem x hmem))]
      cases ys.splitOn a <;> rfl

/-! ### Reading from the middle of a line -/

variable {sources names : Array String} {line : Nat} {base : Base}

/-- Reads a text from the middle of the line with index `line` on. -/
def readOn (sources names : Array String) (line : Nat) (base : Base) (bytes : List UInt8) :
    Except Fault (List Mapping) :=
  match bytes.splitOn 59 with
  | [] => .ok []
  | first :: rest => do
    let (mappings, base) ← readLine sources names line base (first.splitOn 44)
    let more ← readLines sources names (line + 1) base rest
    return mappings ++ more

/-- Reading lines is reading on from column zero. -/
theorem readLines_splitOn (bytes : List UInt8) :
    readLines sources names line base (bytes.splitOn 59)
      = readOn sources names line { base with column := 0 } bytes := by
  rw [readOn]
  cases bytes.splitOn 59 <;> rfl

/-- A text is read on from its beginning. -/
theorem read_eq_readOn (text : List Char) :
    read sources names text = readOn sources names 0 Base.start (Text.Utf8.encode text) :=
  readLines_splitOn _

/-- A comma by itself says nothing. -/
theorem readOn_comma (bytes : List UInt8) :
    readOn sources names line base (44 :: bytes) = readOn sources names line base bytes := by
  have hsplit : (44 :: bytes).splitOn 59 = (bytes.splitOn 59).modifyHead (44 :: ·) := by
    rw [List.splitOn_cons_eq_if_modifyHead]
    rfl
  rw [readOn, readOn, hsplit]
  cases bytes.splitOn 59 with
  | nil => rfl
  | cons first rest => simp only [List.modifyHead_cons, List.splitOn_cons_self, readLine]

/-- A semicolon begins the next line, at column zero. -/
theorem readOn_semicolon (bytes : List UInt8) :
    readOn sources names line base (59 :: bytes)
      = readOn sources names (line + 1) { base with column := 0 } bytes := by
  rw [readOn, List.splitOn_cons_self, ← readLines_splitOn]
  simp only [List.splitOn_nil, readLine, bind, Except.bind]
  cases readLines sources names (line + 1) base (bytes.splitOn 59) <;> rfl

/-- Semicolons begin as many lines as they are. -/
theorem readOn_semicolons (k : Nat) (bytes : List UInt8) :
    readOn sources names line base (List.replicate (k + 1) 59 ++ bytes)
      = readOn sources names (line + (k + 1)) { base with column := 0 } bytes := by
  induction k generalizing line base with
  | zero => exact readOn_semicolon bytes
  | succ k ih =>
      rw [List.replicate_succ, List.cons_append, readOn_semicolon, ih,
        Nat.add_assoc line 1 (k + 1), Nat.add_comm 1 (k + 1)]

/-- Whether a segment ends where these bytes begin. -/
def Ends (bytes : List UInt8) : Prop :=
  ∀ b ∈ bytes.head?, b = 44 ∨ b = 59

/-- A segment is read before the rest of its line. -/
theorem readLine_splitOn_append {base' : Base} {segment first : List UInt8} {numbers : List Int}
    {mapping : Mapping} (hne : segment ≠ []) (hcomma : 44 ∉ segment)
    (hfirst : first = [] ∨ ∃ rest, first = 44 :: rest)
    (hdecode : Vlq.decode segment = .ok numbers)
    (hnumbers : readNumbers sources names line base numbers = .ok (mapping, base')) :
    readLine sources names line base ((segment ++ first).splitOn 44)
      = (readLine sources names line base' (first.splitOn 44)).map
          fun read => (mapping :: read.1, read.2) := by
  have step : ∀ parts, readLine sources names line base (segment :: parts)
      = (readLine sources names line base' parts).map fun read => (mapping :: read.1, read.2) := by
    intro parts
    rw [readLine, hdecode]
    · show Except.bind (readNumbers sources names line base numbers) _ = _
      rw [hnumbers]
      show Except.bind (readLine sources names line base' parts) _ = _
      cases readLine sources names line base' parts <;> rfl
    · exact hne
  rcases hfirst with rfl | ⟨rest, rfl⟩
  · rw [List.append_nil, List.splitOn_eq_singleton hcomma, step]
    rfl
  · rw [List.splitOn_append_cons_self_of_not_mem hcomma, List.splitOn_cons_self, step]
    rfl

/-- A whole segment gives its mapping. -/
theorem readOn_segment {base' : Base} {segment bytes : List UInt8} {numbers : List Int}
    {mapping : Mapping} (hne : segment ≠ []) (hmarks : ∀ b ∈ segment, b ≠ 44 ∧ b ≠ 59)
    (hends : Ends bytes) (hdecode : Vlq.decode segment = .ok numbers)
    (hnumbers : readNumbers sources names line base numbers = .ok (mapping, base')) :
    readOn sources names line base (segment ++ bytes)
      = (readOn sources names line base' bytes).map (mapping :: ·) := by
  have hcomma : 44 ∉ segment := fun h => (hmarks 44 h).1 rfl
  have hsemicolon : 59 ∉ segment := fun h => (hmarks 59 h).2 rfl
  rw [readOn, readOn, splitOn_append_of_not_mem hsemicolon]
  cases hlines : bytes.splitOn 59 with
  | nil => exact absurd hlines (List.splitOn_ne_nil _ _)
  | cons first rest =>
      -- the line goes on with nothing or with a comma
      have hfirst : first = [] ∨ ∃ tail, first = 44 :: tail := by
        cases bytes with
        | nil =>
            rw [List.splitOn_nil] at hlines
            exact Or.inl (List.cons.inj hlines).1.symm
        | cons b bs =>
            rcases hends b rfl with rfl | rfl
            · rw [List.splitOn_cons_eq_if_modifyHead, if_neg (by decide)] at hlines
              cases hbs : bs.splitOn 59 with
              | nil => exact absurd hbs (List.splitOn_ne_nil _ _)
              | cons tail _ =>
                  rw [hbs] at hlines
                  exact Or.inr ⟨tail, (List.cons.inj hlines).1.symm⟩
            · rw [List.splitOn_cons_self] at hlines
              exact Or.inl (List.cons.inj hlines).1.symm
      simp only [List.modifyHead_cons,
        readLine_splitOn_append hne hcomma hfirst hdecode hnumbers]
      cases readLine sources names line base' (first.splitOn 44) with
      | error fault => rfl
      | ok read =>
          simp only [Except.map, bind, Except.bind]
          cases readLines sources names (line + 1) read.2 rest <;> rfl

end StylePrint.SourceMap.Segments
