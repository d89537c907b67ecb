import StylePrint.Proofs.Config.Literals
import StylePrint.Proofs.Json.Ascending
/-!
Lines of a configuration file. A line that is written in one of the ways there are is read as the
option it has, or as none (`LineForm.line?_eq`), and no such line holds a line break, so a file
falls apart into the lines it was written from (`lines_next`). A file that writes options under keys
of their own is therefore read as the object of these options, and nothing else in it shows
(`parse_of_writes`).
-/

namespace StylePrint.Config

open Json (insertMember sortMembers)

variable {cs form margin rest : List Char} {name : String} {scalar : Scalar}
  {entry : Option (String × Scalar)}

/-! ### Blanks and ends -/

theorem skipBlanks_append (hmargin : Blanks margin) (hrest : ∀ c ∈ rest.head?, isBlank c = false) :
    skipBlanks (margin ++ rest) = rest :=
  List.dropWhile_append_of_stops hmargin hrest

theorem Ending.isLineEnd (h : Ending cs) : isLineEnd (skipBlanks cs) = true := by
  induction h with
  | nothing => rfl
  | @comment words hwords =>
      have hany : words.any isControl = false := by simpa using hwords
      show (!words.any isControl) = true
      rw [hany]
      rfl
  | @blank c cs hc _ ih =>
      rw [skipBlanks, List.dropWhile_cons_of_pos hc]
      exact ih

/-- An end of a line begins with nothing a key or a value could go on with. -/
theorem Ending.begins (h : Ending cs) : ∀ c ∈ cs.head?, isBlank c = true ∨ c = '#' := by
  intro c hc
  cases h with
  | nothing => cases hc
  | comment =>
      obtain rfl := Option.some.inj hc
      exact .inr rfl
  | blank hblank =>
      obtain rfl := Option.some.inj hc
      exact .inl hblank

theorem isControl_of_isBlank {c : Char} (h : isBlank c = true) : isControl c = false := by
  simp only [isBlank, Bool.or_eq_true, decide_eq_true_eq] at h
  rcases h with rfl | rfl <;> decide

theorem Ending.uncontrolled (h : Ending cs) : ∀ c ∈ cs, isControl c = false := by
  induction h with
  | nothing => exact nofun
  | comment hwords => exact List.forall_mem_cons.mpr ⟨rfl, hwords⟩
  | blank hc _ ih => exact List.forall_mem_cons.mpr ⟨isControl_of_isBlank hc, ih⟩

/-! ### Keys -/

/-- A character that is neither a blank nor the beginning of a comment. -/
def isInk (c : Char) : Bool :=
  !isBlank c && c ≠ '#'

theorem isInk_iff {c : Char} : isInk c = true ↔ isBlank c = false ∧ c ≠ '#' := by
  simp [isInk]

theorem isInk_of_isBareKeyChar {c : Char} (h : isBareKeyChar c = true) : isInk c = true := by
  have hrange := toNat_of_isBareKeyChar h
  have hne {d : Char} (hd : d.toNat < 45) : c ≠ d := by
    rintro rfl
    omega
  simp [isInk, isBlank, hne (show ' '.toNat < 45 by decide), hne (show '\t'.toNat < 45 by decide),
    hne (show '#'.toNat < 45 by decide)]

theorem not_isBareKeyChar_of_isBlank {c : Char} (h : isBlank c = true) :
    isBareKeyChar c = false := by
  rw [← Bool.not_eq_true]
  intro hbare
  rw [(isInk_iff.mp (isInk_of_isBareKeyChar hbare)).1] at h
  cases h

theorem KeyForm.begins (h : KeyForm form name) :
    ∃ c tail, form = c :: tail ∧ isInk c = true ∧ c ≠ '\uFEFF' := by
  cases h with
  | bare hne hbare =>
      obtain ⟨c, tail, rfl⟩ := List.exists_cons_of_ne_nil hne
      have hc := hbare c List.mem_cons_self
      refine ⟨c, tail, rfl, isInk_of_isBareKeyChar hc, ?_⟩
      rintro rfl
      exact absurd hc (by decide)
  | quoted => exact ⟨'"', _, rfl, rfl, by decide⟩

theorem KeyForm.uncontrolled (h : KeyForm form name) : ∀ c ∈ form, isControl c = false := by
  cases h with
  | bare _ hbare => exact fun c hc => isControl_of_isBareKeyChar (hbare c hc)
  | quoted h => exact List.forall_mem_cons.mpr ⟨rfl, h.uncontrolled⟩

/-- A key is read up to the blank or the equals sign behind it. -/
theorem KeyForm.key?_append (h : KeyForm form name)
    (hrest : ∀ c ∈ rest.head?, isBareKeyChar c = false) :
    key? (form ++ rest) = some (name.toList, rest) := by
  cases h with
  | quoted h =>
      rw [String.toList_ofList]
      exact h.quoted?_append rest
  | bare hne hbare =>
      obtain ⟨c, tail, rfl⟩ := List.exists_cons_of_ne_nil hne
      have htake := List.takeWhile_append_of_stops hbare hrest
      have hdrop := List.dropWhile_append_of_stops hbare hrest
      have hquote : c ≠ '"' := by
        rintro rfl
        exact absurd (hbare '"' List.mem_cons_self) (by decide)
      rw [List.cons_append] at htake hdrop ⊢
      rw [key?]
      · rw [htake, hdrop, String.toList_ofList]
      · exact fun _ heq => hquote (List.cons.inj heq).1

/-! ### Values -/

theorem IntegerForm.isInk {n : Int} (h : IntegerForm cs n) : ∀ c ∈ cs, isInk c = true := by
  intro c hc
  rcases h.mem c hc with hbare | rfl
  · exact isInk_of_isBareKeyChar hbare
  · rfl

/-- An integer is no other value. -/
theorem IntegerForm.begins_ne {n : Int} (h : IntegerForm cs n) :
    ∃ c tail, cs = c :: tail ∧ c ≠ '"' ∧ c ≠ 't' ∧ c ≠ 'f' := by
  obtain ⟨c, tail, rfl, hc⟩ := h.begins
  refine ⟨c, tail, rfl, ?_, ?_, ?_⟩ <;>
  · rintro rfl
    revert hc
    decide

theorem ValueForm.begins (h : ValueForm form scalar) :
    ∃ c tail, form = c :: tail ∧ isBlank c = false := by
  cases h with
  | yes => exact ⟨'t', _, rfl, rfl⟩
  | no => exact ⟨'f', _, rfl, rfl⟩
  | text => exact ⟨'"', _, rfl, rfl⟩
  | integer h =>
      obtain ⟨c, tail, rfl, -⟩ := h.begins
      exact ⟨c, tail, rfl, (isInk_iff.mp (h.isInk c List.mem_cons_self)).1⟩

theorem ValueForm.uncontrolled (h : ValueForm form scalar) : ∀ c ∈ form, isControl c = false := by
  cases h with
  | yes => simp [isControl]
  | no => simp [isControl]
  | text h => exact List.forall_mem_cons.mpr ⟨rfl, h.uncontrolled⟩
  | integer h =>
      intro c hc
      rcases h.mem c hc with hbare | rfl
      · exact isControl_of_isBareKeyChar hbare
      · rfl

/-- A word without quotes is read up to the end of the line. -/
theorem value?_word {c : Char} {tail : List Char} {value : Json}
    (hword : ∀ d ∈ c :: tail, isInk d = true) (hquote : c ≠ '"')
    (hread : bareValue? (c :: tail) = some value) (hrest : Ending rest) :
    value? (c :: tail ++ rest) = some (value, rest) := by
  have hstop : ∀ d ∈ rest.head?, isInk d = false := by
    intro d hd
    rcases hrest.begins d hd with hblank | rfl
    · simp [isInk, hblank]
    · rfl
  have htake : (c :: tail ++ rest).takeWhile isInk = c :: tail :=
    List.takeWhile_append_of_stops hword hstop
  have hdrop : (c :: tail ++ rest).dropWhile isInk = rest :=
    List.dropWhile_append_of_stops hword hstop
  rw [value?]
  · show (bareValue? ((c :: tail ++ rest).takeWhile isInk)).map
      (fun value => (value, (c :: tail ++ rest).dropWhile isInk)) = _
    rw [htake, hdrop, hread, Option.map_some]
  · exact fun _ heq => hquote (List.cons.inj heq).1

/-- **A value is read back**, however it is written, and the end of the line is left. -/
theorem ValueForm.value?_append (h : ValueForm form scalar) (hrest : Ending rest) :
    value? (form ++ rest) = some (scalar.toJson, rest) := by
  cases h with
  | yes => exact value?_word (List.all_eq_true.mp rfl) (by decide) rfl hrest
  | no => exact value?_word (List.all_eq_true.mp rfl) (by decide) rfl hrest
  | text h =>
      show (quoted? (_ ++ rest)).map _ = _
      rw [h.quoted?_append]
      rfl
  | @integer cs n h =>
      obtain ⟨c, tail, rfl, hquote, htrue, hfalse⟩ := h.begins_ne
      refine value?_word h.isInk hquote ?_ hrest
      simp [bareValue?, htrue, hfalse, h.integer?_eq, Scalar.toJson]

/-! ### Lines -/

theorem LineForm.uncontrolled (h : LineForm cs entry) : ∀ c ∈ cs, isControl c = false := by
  have hblanks {blanks : List Char} (hblanks : Blanks blanks) : ∀ c ∈ blanks, isControl c = false :=
    fun c hc => isControl_of_isBlank (hblanks c hc)
  cases h with
  | idle h => exact h.uncontrolled
  | entry hmargin hkey hgap hlead hvalue hending =>
      simp only [List.forall_mem_append, List.forall_mem_cons]
      exact ⟨hblanks hmargin, hkey.uncontrolled, hblanks hgap, rfl, hblanks hlead,
        hvalue.uncontrolled, hending.uncontrolled⟩

/-- A line that is not empty does not begin like a byte order mark. -/
theorem LineForm.begins (h : LineForm cs entry) : ∀ c ∈ cs.head?, c ≠ '\uFEFF' := by
  rintro _ hc rfl
  cases h with
  | idle h => exact absurd (h.begins _ hc) (by decide)
  | @entry margin key gap lead value ending name scalar hmargin hkey _ _ _ _ =>
      cases margin with
      | cons c margin =>
          obtain rfl := Option.some.inj hc
          exact absurd (hmargin _ List.mem_cons_self) (by decide)
      | nil =>
          obtain ⟨c, tail, rfl, -, hbegins⟩ := hkey.begins
          exact hbegins (Option.some.inj hc)

/-- **A line is read back**, however it is written. -/
theorem LineForm.line?_eq (h : LineForm cs entry) : line? cs = some (entry.map member) := by
  cases h with
  | idle h =>
      rw [line?, if_pos h.isLineEnd]
      rfl
  | @entry margin key gap lead value ending name scalar hmargin hkey hgap hlead hvalue hending =>
      obtain ⟨c, keyTail, hcons, hink, -⟩ := hkey.begins
      obtain ⟨d, valueTail, hcons', hblank⟩ := hvalue.begins
      rw [isInk_iff] at hink
      have hlead' : skipBlanks (lead ++ (value ++ ending)) = value ++ ending :=
        skipBlanks_append hlead (by simp [hcons', hblank])
      generalize hbehind : lead ++ (value ++ ending) = behind at hlead' ⊢
      have hmargin' : skipBlanks (margin ++ (key ++ (gap ++ '=' :: behind)))
          = key ++ (gap ++ '=' :: behind) := skipBlanks_append hmargin (by simp [hcons, hink.1])
      have hgap' : skipBlanks (gap ++ '=' :: behind) = '=' :: behind :=
        skipBlanks_append hgap (by simp [isBlank])
      have hnoEnd : isLineEnd (key ++ (gap ++ '=' :: behind)) = false := by
        rw [hcons, List.cons_append, isLineEnd]
        · exact List.cons_ne_nil c _
        · exact fun _ heq => hink.2 (List.cons.inj heq).1
      have hname : key? (key ++ (gap ++ '=' :: behind))
          = some (name.toList, gap ++ '=' :: behind) := by
        refine hkey.key?_append ?_
        cases gap with
        | nil => simp [isBareKeyChar]
        | cons b gap => simpa using not_isBareKeyChar_of_isBlank (hgap b List.mem_cons_self)
      simp [line?, hmargin', hnoEnd, hname, hgap', hlead', hvalue.value?_append hending,
        hending.isLineEnd, member]

/-! ### Files -/

theorem lines_last (hcs : ∀ c ∈ cs, isControl c = false) : lines cs = [cs] := by
  have hbreak : '\n' ∉ cs := fun hmem => absurd (hcs _ hmem) (by decide)
  rw [lines, List.splitOn_eq_singleton hbreak]
  rfl

theorem lines_append {line : List Char} (hbreak : '\n' ∉ line) (rest : List Char) :
    lines (line ++ '\n' :: rest)
      = (if line.getLast? = some '\r' then line.dropLast else line) :: lines rest := by
  obtain ⟨first, parts, hparts⟩ := List.exists_cons_of_ne_nil (List.splitOn_ne_nil '\n' rest)
  have hsplit : (line ++ '\n' :: rest).splitOn '\n' = line :: first :: parts := by
    rw [List.splitOn_append_cons_self_of_not_mem hbreak, hparts]
  rw [lines, lines, hsplit, hparts]
  simp

/-- A line break ends the line in front of it, with a carriage return or without. -/
theorem lines_next (hcs : ∀ c ∈ cs, isControl c = false) {lineBreak : List Char}
    (hlineBreak : lineBreak = ['\n'] ∨ lineBreak = ['\r', '\n']) (rest : List Char) :
    lines (cs ++ (lineBreak ++ rest)) = cs :: lines rest := by
  have hbreak : '\n' ∉ cs := fun hmem => absurd (hcs _ hmem) (by decide)
  rcases hlineBreak with rfl | rfl
  · have hreturn : cs.getLast? ≠ some '\r' := fun hlast =>
      absurd (hcs _ (List.mem_of_getLast? hlast)) (by decide)
    rw [List.singleton_append, lines_append hbreak, if_neg hreturn]
  · have hbreak' : '\n' ∉ cs ++ ['\r'] := by simp [hbreak]
    have happend := lines_append hbreak' rest
    rw [if_pos List.getLast?_concat, List.dropLast_concat, List.append_assoc] at happend
    exact happend

/-- A line with an option adds it to those read before, and a line without leaves them. -/
theorem entries_cons (h : LineForm cs entry) {done : List (String × Json)}
    (hfresh : ∀ option ∈ entry, done.lookup option.1 = none) (number : Nat)
    (rest : List (List Char)) :
    entries done number (cs :: rest)
      = entries ((entry.map member).toList.foldl
          (fun done option => insertMember option.1 option.2 done) done) (number + 1) rest := by
  rw [entries, h.line?_eq]
  cases entry with
  | none => rfl
  | some option =>
      have hnone : done.lookup (member option).1 = none := hfresh option rfl
      simp [hnone]

/-- Options under keys of their own are read one after another. -/
theorem LinesForm.entries_eq {options : List (String × Scalar)} (h : LinesForm cs options)
    (hkeys : (options.map Prod.fst).Nodup) {done : List (String × Json)}
    (hfresh : ∀ option ∈ options, done.lookup option.1 = none) (number : Nat) :
    entries done number (lines cs)
      = .ok ((options.map member).foldl
          (fun done option => insertMember option.1 option.2 done) done) := by
  -- no option still to come is under a key that was read, which every line keeps
  induction h generalizing done number with
  | @last cs entry h =>
      rw [lines_last h.uncontrolled, entries_cons h (by simpa using hfresh)]
      cases entry <;> rfl
  | @next cs lineBreak rest entry options h hlineBreak _ ih =>
      rw [lines_next h.uncontrolled hlineBreak,
        entries_cons h fun option hoption =>
          hfresh option (List.mem_append_left _ (Option.mem_toList.mpr hoption))]
      cases entry with
      | none => exact ih hkeys hfresh _
      | some first =>
          obtain ⟨hfirst, hrest⟩ := List.nodup_cons.mp hkeys
          refine ih hrest (fun option hoption => ?_) _
          have hne : option.1 ≠ first.1 := fun heq =>
            hfirst (heq ▸ List.mem_map_of_mem hoption)
          show (insertMember first.1 first.2.toJson done).lookup option.1 = none
          rw [Json.lookup_insertMember, if_neg hne]
          exact hfresh option (List.mem_append_right _ hoption)

/-- Written lines do not begin with a byte order mark. -/
theorem LinesForm.skipMark_eq {options : List (String × Scalar)} (h : LinesForm cs options) :
    skipMark cs = cs := by
  have hbegins : ∀ c ∈ cs.head?, c ≠ '\uFEFF' := by
    cases h with
    | last h => exact h.begins
    | @next cs lineBreak rest entry options h hlineBreak =>
        cases cs with
        | cons c cs => exact h.begins
        | nil =>
            rcases hlineBreak with rfl | rfl
            · simp
            · simp
  unfold skipMark
  split
  · exact absurd rfl (hbegins _ rfl)
  · rfl

/-- **What a file writes is read**: the object of its options, in ascending order of key. -/
theorem parse_of_writes {text : String} {options : List (String × Scalar)}
    (h : Writes text options) (hkeys : (options.map Prod.fst).Nodup) :
    parse text
      = (Options.ofJson (.object (sortMembers (options.map member)))).mapError .options := by
  obtain ⟨cs, hcs, hlines⟩ := h
  have hmark : skipMark text.toList = cs := by
    rcases hcs with hcs | hcs
    · rw [hcs, hlines.skipMark_eq]
    · rw [hcs]
      rfl
  have hread : entries [] 1 (lines cs) = .ok (sortMembers (options.map member)) :=
    hlines.entries_eq hkeys (fun _ _ => rfl) 1
  rw [parse, hmark, hread]
  rfl

end StylePrint.Config
