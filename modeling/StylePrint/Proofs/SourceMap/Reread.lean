import Mathlib.Data.List.Basic
import StylePrint.Proofs.SourceMap.Scan
import StylePrint.Proofs.SourceMap.Vlq
import StylePrint.Proofs.Caret
/-!
Segments written and read back. A segment is a row of differences to the cursor, the reader adds
them to its base, and adding a difference to the word of what it was taken from gives the word of
the number itself, wrapped around or not (`moved_word`). So the base stays the cursor's words from
segment to segment, and a text of mappings reads as those mappings, without the repetitions and with
their sources under the names the reader has for them (`readOn_writeFrom`).
-/

namespace StylePrint.SourceMap

/-- A mapping with its source under another name. -/
def Mapping.rename (f : String → String) (m : Mapping) : Mapping :=
  { m with origin := m.origin.map fun origin => { origin with source := f origin.source } }

theorem Mapping.rename_id : Mapping.rename id = id := by
  funext m
  rcases m with ⟨generated, _ | ⟨source, place, name⟩⟩ <;> rfl

/-- Whether the lines of a mapping begin at one. -/
structure Mapping.Placed (m : Mapping) : Prop where
  line : 0 < m.generated.line.toNat
  sourceLine : ∀ origin ∈ m.origin, 0 < origin.place.line.toNat

namespace Segments

/-! ### A segment as numbers -/

/-- The numbers of the part of a segment that tells the origin. -/
def originNumbers (sources names : List String) (cursor : Cursor) (origin : Origin) : List Int :=
  [(sources.idxOf origin.source : Int) - cursor.source,
    ((origin.place.line.toNat - 1 : Nat) : Int) - cursor.sourceLine,
    (origin.place.column.toNat : Int) - cursor.sourceColumn]
    ++ (origin.name.map fun name => (names.idxOf name : Int) - cursor.name).toList

/-- The numbers of a segment. -/
def numbers (sources names : List String) (cursor : Cursor) (m : Mapping) : List Int :=
  ((m.generated.column.toNat : Int) - cursor.column)
    :: m.origin.elim [] (originNumbers sources names cursor)

/-- The cursor behind a segment. -/
def Cursor.behind (sources names : List String) (cursor : Cursor) (m : Mapping) : Cursor :=
  (writeSegment sources names cursor m).2

@[simp] theorem Cursor.line_behind (sources names : List String) (cursor : Cursor) (m : Mapping) :
    (cursor.behind sources names m).line = cursor.line := by
  rcases m with ⟨generated, _ | ⟨source, place, _ | name⟩⟩ <;> rfl

/-- The characters of a segment are those of its numbers. -/
theorem writeSegment_eq (sources names : List String) (cursor : Cursor) (m : Mapping) :
    writeSegment sources names cursor m
      = ((numbers sources names cursor m).flatMap Vlq.encode, cursor.behind sources names m) := by
  rcases m with ⟨generated, _ | ⟨source, place, _ | name⟩⟩ <;>
    simp [writeSegment, writeOrigin, Cursor.behind, numbers, originNumbers, difference]

/-- The bytes of numbers in a row. -/
theorem encode_flatMap (ns : List Int) :
    Text.Utf8.encode (ns.flatMap Vlq.encode) = ns.flatMap Vlq.bytes := by
  induction ns with
  | nil => rfl
  | cons n ns ih =>
      rw [List.flatMap_cons, List.flatMap_cons, Text.Utf8.encode_append, Vlq.encode_utf8, ih]

/-! ### Words of a cursor -/

/-- The numbers of a cursor as words. -/
def Cursor.base (cursor : Cursor) : Base where
  column := UInt32.ofNat cursor.column
  source := UInt32.ofNat cursor.source
  sourceLine := UInt32.ofNat cursor.sourceLine
  sourceColumn := UInt32.ofNat cursor.sourceColumn
  name := UInt32.ofNat cursor.name

/-- A difference moves the word of the number it was taken from to that of the number it leads to,
however large the two are. -/
theorem moved_word (now before : Nat) :
    moved (UInt32.ofNat before) ((now : Int) - before) = UInt32.ofNat now := by
  apply UInt32.toNat_inj.mp
  rw [moved, UInt32.ofInt, UInt32.toNat_ofNat', UInt32.toNat_ofNat', UInt32.toNat_ofNat']
  omega

@[simp] theorem moved_toNat (w : UInt32) (before : Nat) :
    moved (UInt32.ofNat before) ((w.toNat : Int) - before) = w := by
  rw [moved_word, UInt32.ofNat_toNat]

/-- Whether the numbers of a cursor, apart from its line, are far from the end of the 64-bit
range that quantities are read in. -/
structure Cursor.InRange (cursor : Cursor) : Prop where
  column : cursor.column < 2 ^ 33
  source : cursor.source < 2 ^ 33
  sourceLine : cursor.sourceLine < 2 ^ 33
  sourceColumn : cursor.sourceColumn < 2 ^ 33
  name : cursor.name < 2 ^ 33

/-! ### One segment -/

/-- Whether a mapping can be written over tables of sources and names: its lines begin at one, and
the tables have what it mentions. -/
structure Writable (sources names : List String) (m : Mapping) : Prop extends m.Placed where
  source : ∀ origin ∈ m.origin, origin.source ∈ sources
  name : ∀ origin ∈ m.origin, ∀ name ∈ origin.name, name ∈ names

/-- The entry at the word of an element's index is the element, in a table whose indices are
words. -/
theorem getElem?_word_idxOf {table : List String} (htable : table.length ≤ 2 ^ 32) {x : String}
    (hx : x ∈ table) (f : String → String) :
    (table.map f).toArray[(UInt32.ofNat (table.idxOf x)).toNat]? = some (f x) := by
  have hlt : table.idxOf x < table.length := List.idxOf_lt_length_of_mem hx
  have hword : (UInt32.ofNat (table.idxOf x)).toNat = table.idxOf x := by
    rw [UInt32.toNat_ofNat']
    omega
  rw [hword, List.getElem?_toArray, List.getElem?_map, List.getElem?_idxOf hx]
  rfl

/-- A word that is not zero is the word after the one before it. -/
theorem saturate_pred_succ {w : UInt32} (h : 0 < w.toNat) : saturate (w.toNat - 1 + 1) = w := by
  rw [Nat.sub_add_cancel h, saturate_toNat]

/-- The same for the word of the number before it. -/
theorem saturate_word_pred_succ {w : UInt32} (h : 0 < w.toNat) :
    saturate ((UInt32.ofNat (w.toNat - 1)).toNat + 1) = w := by
  have := w.toNat_lt
  rw [UInt32.toNat_ofNat', Nat.mod_eq_of_lt (by omega), saturate_pred_succ h]

section Segment

variable {sources names : List String}

/-- The numbers of a segment are read as the mapping they were taken from, and leave the base that
the cursor leaves. -/
theorem readNumbers_numbers (hsources : sources.length ≤ 2 ^ 32) (hnames : names.length ≤ 2 ^ 32)
    (f : String → String) {m : Mapping} (hm : Writable sources names m) (cursor : Cursor) :
    readNumbers (sources.map f).toArray names.toArray (m.generated.line.toNat - 1) cursor.base
        (numbers sources names cursor m)
      = .ok (m.rename f, (cursor.behind sources names m).base) := by
  have hline := saturate_pred_succ hm.line
  rcases m with ⟨generated, _ | ⟨source, place, name⟩⟩
  · simp only [numbers, Option.elim_none, readNumbers, Cursor.base, moved_toNat, hline]
    simp [Cursor.behind, writeSegment, Mapping.rename, pure, Except.pure]
  · have hsource := getElem?_word_idxOf hsources (hm.source _ rfl) f
    have hplace := saturate_word_pred_succ (hm.sourceLine _ rfl)
    cases name with
    | none =>
        simp only [numbers, originNumbers, Option.elim_some, Option.map_none, Option.toList_none,
          List.append_nil, readNumbers, readName, Cursor.base, moved_word, hline, hsource,
          List.length_nil, bind, Except.bind, hplace, Cursor.behind, writeSegment, writeOrigin,
          UInt32.ofNat_toNat]
        rfl
    | some name =>
        have hname := getElem?_word_idxOf hnames (hm.name _ rfl name rfl) id
        rw [List.map_id] at hname
        simp only [numbers, originNumbers, Option.elim_some, Option.map_some, Option.toList_some,
          List.cons_append, List.nil_append, readNumbers, readName, Cursor.base, moved_word, hline,
          hsource, hname, List.length_cons, List.length_nil, bind, Except.bind, hplace,
          Cursor.behind, writeSegment, writeOrigin, UInt32.ofNat_toNat]
        rfl

/-- A word, and the number before it, are in range. -/
theorem word_inRange (w : UInt32) : w.toNat < 2 ^ 33 ∧ w.toNat - 1 < 2 ^ 33 := by
  have := w.toNat_lt
  omega

/-- An index of a table whose indices are words is in range, and so is the length. -/
theorem idxOf_inRange {table : List String} (htable : table.length ≤ 2 ^ 32) (x : String) :
    table.idxOf x < 2 ^ 33 := by
  have := List.idxOf_le_length (a := x) (l := table)
  omega

/-- A cursor stays in range behind a segment. -/
theorem inRange_behind (hsources : sources.length ≤ 2 ^ 32) (hnames : names.length ≤ 2 ^ 32)
    (m : Mapping) {cursor : Cursor} (h : cursor.InRange) :
    (cursor.behind sources names m).InRange := by
  rcases m with ⟨generated, _ | ⟨source, place, _ | name⟩⟩
  · exact ⟨(word_inRange _).1, h.source, h.sourceLine, h.sourceColumn, h.name⟩
  · exact ⟨(word_inRange _).1, idxOf_inRange hsources _, (word_inRange _).2, (word_inRange _).1,
      h.name⟩
  · exact ⟨(word_inRange _).1, idxOf_inRange hsources _, (word_inRange _).2, (word_inRange _).1,
      idxOf_inRange hnames _⟩

/-- The numbers of a segment are far inside the range of quantities. -/
theorem natAbs_lt_of_mem_numbers (hsources : sources.length ≤ 2 ^ 32)
    (hnames : names.length ≤ 2 ^ 32) (m : Mapping) {cursor : Cursor} (h : cursor.InRange) {n : Int}
    (hn : n ∈ numbers sources names cursor m) : n.natAbs < 2 ^ 62 := by
  have between : ∀ {now before : Nat}, now < 2 ^ 33 → before < 2 ^ 33 →
      ((now : Int) - before).natAbs < 2 ^ 62 := by
    intro now before hnow hbefore
    omega
  rw [numbers, List.mem_cons] at hn
  rcases hn with rfl | hn
  · exact between (word_inRange _).1 h.column
  · rcases m with ⟨generated, _ | ⟨source, place, name⟩⟩
    · simp at hn
    · simp only [Option.elim_some, originNumbers, List.cons_append, List.nil_append,
        List.mem_cons] at hn
      rcases hn with rfl | rfl | rfl | hn
      · exact between (idxOf_inRange hsources _) h.source
      · exact between (word_inRange _).2 h.sourceLine
      · exact between (word_inRange _).1 h.sourceColumn
      · cases name with
        | none => simp at hn
        | some name =>
            simp only [Option.map_some, Option.toList_some, List.mem_singleton] at hn
            subst hn
            exact between (idxOf_inRange hnames _) h.name

/-- A segment that ends where it ends is read as its mapping. -/
theorem readOn_writeSegment (hsources : sources.length ≤ 2 ^ 32) (hnames : names.length ≤ 2 ^ 32)
    (f : String → String) {m : Mapping} (hm : Writable sources names m) {cursor : Cursor}
    (hcursor : cursor.InRange) (hline : cursor.line = m.generated.line.toNat - 1)
    {bytes : List UInt8} (hends : Ends bytes) :
    readOn (sources.map f).toArray names.toArray cursor.line cursor.base
        (Text.Utf8.encode (writeSegment sources names cursor m).1 ++ bytes)
      = (readOn (sources.map f).toArray names.toArray cursor.line
          (cursor.behind sources names m).base bytes).map (m.rename f :: ·) := by
  rw [writeSegment_eq, encode_flatMap]
  apply readOn_segment _ _ hends
  · exact Vlq.decode_flatMap_bytes fun n hn => natAbs_lt_of_mem_numbers hsources hnames m hcursor hn
  · rw [hline]
    exact readNumbers_numbers hsources hnames f hm cursor
  · rw [numbers, List.flatMap_cons]
    intro h
    exact Vlq.bytes_ne_nil _ (List.append_eq_nil_iff.mp h).1
  · intro b hb
    obtain ⟨n, -, hn⟩ := List.mem_flatMap.mp hb
    exact Vlq.not_mark_of_mem_bytes hn

end Segment

/-! ### All segments -/

/-- The mappings that get a segment: those that differ from the one before them. -/
def kept (previous : Option Mapping) : List Mapping → List Mapping
  | [] => []
  | m :: ms => if previous = some m then kept previous ms else m :: kept (some m) ms

/-- Whether the mappings of a list stand on ascending lines from the line with index `line` on. -/
def Ascends (line : Nat) (ms : List Mapping) : Prop :=
  (∀ m ∈ ms, line ≤ m.generated.line.toNat - 1) ∧
    ms.Pairwise fun a b => a.generated.line.toNat ≤ b.generated.line.toNat

theorem Ascends.tail {line : Nat} {m : Mapping} {ms : List Mapping} (h : Ascends line (m :: ms)) :
    Ascends line ms := by
  refine ⟨?_, (List.pairwise_cons.mp h.2).2⟩
  intro m' hm'
  exact h.1 m' (List.mem_cons_of_mem m hm')

theorem Ascends.next {line : Nat} {m : Mapping} {ms : List Mapping} (h : Ascends line (m :: ms)) :
    Ascends (m.generated.line.toNat - 1) ms := by
  refine ⟨?_, (List.pairwise_cons.mp h.2).2⟩
  intro m' hm'
  have := (List.pairwise_cons.mp h.2).1 m' hm'
  omega

variable {sources names : List String}

/-- Behind a segment, what is written next ends it. -/
theorem ends_writeFrom (cursor : Cursor) (previous : Mapping) {ms : List Mapping}
    (h : Ascends cursor.line ms) :
    Ends (Text.Utf8.encode (writeFrom sources names cursor (some previous) ms)) := by
  induction ms with
  | nil =>
      intro b hb
      simp [writeFrom] at hb
  | cons m ms ih =>
      rw [writeFrom]
      by_cases hsame : some previous = some m
      · rw [if_pos hsame]
        exact ih h.tail
      · rw [if_neg hsame]
        by_cases hline : m.generated.line.toNat - 1 = cursor.line
        · rw [if_pos hline]
          rintro b ⟨⟩
          exact Or.inl rfl
        · have hle := h.1 m (List.mem_cons_self ..)
          obtain ⟨k, hk⟩ : ∃ k, m.generated.line.toNat - 1 - cursor.line = k + 1 :=
            ⟨m.generated.line.toNat - 1 - cursor.line - 1, by omega⟩
          rw [if_neg hline, hk, List.replicate_succ]
          rintro b ⟨⟩
          exact Or.inr rfl

/-- Line breaks are written as semicolons. -/
theorem encode_semicolons (k : Nat) :
    Text.Utf8.encode (List.replicate k ';') = List.replicate k 59 := by
  induction k with
  | zero => rfl
  | succ k ih =>
      rw [List.replicate_succ, Text.Utf8.encode_cons, ih]
      rfl

/-- A row of mappings on ascending lines is read as those of them that get a segment. -/
theorem readOn_writeFrom (hsources : sources.length ≤ 2 ^ 32) (hnames : names.length ≤ 2 ^ 32)
    (f : String → String) {ms : List Mapping} (hms : ∀ m ∈ ms, Writable sources names m)
    (cursor : Cursor) (hcursor : cursor.InRange) (previous : Option Mapping)
    (hlines : Ascends cursor.line ms) :
    readOn (sources.map f).toArray names.toArray cursor.line cursor.base
        (Text.Utf8.encode (writeFrom sources names cursor previous ms))
      = .ok ((kept previous ms).map (Mapping.rename f)) := by
  induction ms generalizing cursor previous with
  | nil => rfl
  | cons m ms ih =>
      have htail : ∀ m' ∈ ms, Writable sources names m' := fun m' h =>
        hms m' (List.mem_cons_of_mem m h)
      rw [writeFrom, kept]
      by_cases hsame : previous = some m
      · rw [if_pos hsame, if_pos hsame]
        exact ih htail cursor hcursor previous hlines.tail
      · rw [if_neg hsame, if_neg hsame]
        -- on the line of the mapping, its segment is read and then the rest
        have segment : ∀ cursor : Cursor, cursor.InRange →
            cursor.line = m.generated.line.toNat - 1 →
            readOn (sources.map f).toArray names.toArray cursor.line cursor.base
                (Text.Utf8.encode ((writeSegment sources names cursor m).1 ++
                  writeFrom sources names (cursor.behind sources names m) (some m) ms))
              = .ok ((m :: kept (some m) ms).map (Mapping.rename f)) := by
          intro cursor hcursor hline
          have hnext : Ascends (cursor.behind sources names m).line ms := by
            rw [Cursor.line_behind, hline]
            exact hlines.next
          have rest := ih htail _ (inRange_behind hsources hnames m hcursor) (some m) hnext
          rw [Cursor.line_behind] at rest
          rw [Text.Utf8.encode_append, readOn_writeSegment hsources hnames f
            (hms m (List.mem_cons_self ..)) hcursor hline (ends_writeFrom _ m hnext), rest]
          rfl
        by_cases hline : m.generated.line.toNat - 1 = cursor.line
        · simp only [if_pos hline, List.append_assoc]
          cases previous with
          | none => exact segment cursor hcursor hline.symm
          | some p =>
              rw [Option.isSome_some, if_pos rfl, List.cons_append, List.nil_append,
                Text.Utf8.encode_cons]
              exact (readOn_comma _).trans (segment cursor hcursor hline.symm)
        · have hle := hlines.1 m (List.mem_cons_self ..)
          obtain ⟨k, hk⟩ : ∃ k, m.generated.line.toNat - 1 - cursor.line = k + 1 :=
            ⟨m.generated.line.toNat - 1 - cursor.line - 1, by omega⟩
          have hreached : cursor.line + (k + 1) = m.generated.line.toNat - 1 := by omega
          simp only [if_neg hline, List.append_assoc]
          rw [hk, Text.Utf8.encode_append, encode_semicolons, readOn_semicolons, hreached]
          exact segment { cursor with line := _, column := 0 }
            ⟨Nat.two_pow_pos 33, hcursor.source, hcursor.sourceLine, hcursor.sourceColumn,
              hcursor.name⟩ rfl

/-- **Written mappings are read back.** -/
theorem read_write (hsources : sources.length ≤ 2 ^ 32) (hnames : names.length ≤ 2 ^ 32)
    (f : String → String) {ms : List Mapping} (hms : ∀ m ∈ ms, Writable sources names m)
    (hlines : ms.Pairwise fun a b => a.generated.line.toNat ≤ b.generated.line.toNat) :
    read (sources.map f).toArray names.toArray (write sources names ms)
      = .ok ((kept none ms).map (Mapping.rename f)) := by
  rw [read_eq_readOn]
  exact readOn_writeFrom hsources hnames f hms Cursor.start
    ⟨by decide, by decide, by decide, by decide, by decide⟩ none
    ⟨fun _ _ => Nat.zero_le _, hlines⟩

end Segments

end StylePrint.SourceMap
