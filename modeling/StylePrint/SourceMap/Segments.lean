import StylePrint.SourceMap.Mapping
import StylePrint.SourceMap.Vlq
import StylePrint.Text.Utf8
/-!
Mappings as text. A semicolon ends each generated line and a comma parts the segments of a line; a
segment holds one number (a generated column) or four or five (also a source, a source line and
column, and a name), each as the difference to the number of its kind before it.
-/

namespace StylePrint.SourceMap.Segments

/-! ### Writing -/

/-- The numbers that the next segment is counted from. -/
structure Cursor where
  line : Nat
  column : Nat
  source : Nat
  sourceLine : Nat
  sourceColumn : Nat
  name : Nat
  deriving DecidableEq, Repr

/-- The cursor at the beginning of the text. -/
def Cursor.start : Cursor := ⟨0, 0, 0, 0, 0, 0⟩

/-- The characters of the difference between two numbers. -/
def difference (now before : Nat) : List Char :=
  Vlq.encode ((now : Int) - before)

/-- The part of a segment that tells the origin, and the cursor behind it. -/
def writeOrigin (sources names : List String) (cursor : Cursor) (origin : Origin) :
    List Char × Cursor :=
  let source := sources.idxOf origin.source
  let line := origin.place.line.toNat - 1
  let column := origin.place.column.toNat
  let chars := difference source cursor.source ++ difference line cursor.sourceLine
    ++ difference column cursor.sourceColumn
  let cursor := { cursor with source, sourceLine := line, sourceColumn := column }
  match origin.name with
  | none => (chars, cursor)
  | some name =>
    let index := names.idxOf name
    (chars ++ difference index cursor.name, { cursor with name := index })

/-- One segment, and the cursor behind it. -/
def writeSegment (sources names : List String) (cursor : Cursor) (mapping : Mapping) :
    List Char × Cursor :=
  let column := mapping.generated.column.toNat
  let chars := difference column cursor.column
  let cursor := { cursor with column }
  match mapping.origin with
  | none => (chars, cursor)
  | some origin =>
    let (more, cursor) := writeOrigin sources names cursor origin
    (chars ++ more, cursor)

/-- Writes mappings in ascending order of their generated places. A mapping equal to the one
before it is left out. -/
def writeFrom (sources names : List String) (cursor : Cursor) (previous : Option Mapping) :
    List Mapping → List Char
  | [] => []
  | mapping :: rest =>
    let line := mapping.generated.line.toNat - 1
    if previous = some mapping then writeFrom sources names cursor previous rest
    else
      let (lead, cursor) :=
        if line = cursor.line then (if previous.isSome then [','] else [], cursor)
        else (List.replicate (line - cursor.line) ';', { cursor with line, column := 0 })
      let (chars, cursor) := writeSegment sources names cursor mapping
      lead ++ chars ++ writeFrom sources names cursor (some mapping) rest

/-- The text of mappings in ascending order of their generated places. -/
def write (sources names : List String) (mappings : List Mapping) : List Char :=
  writeFrom sources names Cursor.start none mappings

/-! ### Reading -/

/-- Why a text is not a list of mappings. -/
inductive Fault where
  | number (fault : Vlq.Fault)
  /-- A segment with a count of numbers other than one, four and five. -/
  | count (count : Nat)
  | source (index : UInt32)
  | name (index : UInt32)
  deriving DecidableEq, Repr

/-- The wording of a fault. -/
def Fault.message : Fault → String
  | .number fault => fault.message
  | .count n => "got " ++ toString n ++ " segments, expected 4 or 5"
  | .source index => "bad reference to source #" ++ toString index.toNat
  | .name index => "bad reference to name #" ++ toString index.toNat

/-- The numbers that the next segment adds to. -/
structure Base where
  column : UInt32
  source : UInt32
  sourceLine : UInt32
  sourceColumn : UInt32
  name : UInt32
  deriving DecidableEq, Repr

/-- The base at the beginning of the text. -/
def Base.start : Base := ⟨0, 0, 0, 0, 0⟩

/-- A word moved by a difference, wrapped around. -/
def moved (word : UInt32) (difference : Int) : UInt32 :=
  UInt32.ofInt (word.toNat + difference)

/-- Reads the name of a segment with five numbers. -/
def readName (names : Array String) (base : Base) : List Int → Except Fault (Option String × Base)
  | d :: _ =>
    let index := moved base.name d
    match names[index.toNat]? with
    | some name => .ok (some name, { base with name := index })
    | none => .error (.name index)
  | [] => .ok (none, base)

/-- Reads the numbers of one segment on the line with index `line`. -/
def readNumbers (sources names : Array String) (line : Nat) (base : Base) :
    List Int → Except Fault (Mapping × Base)
  | [] => .error (.count 0)
  | d :: rest => do
    let base := { base with column := moved base.column d }
    let generated : Place := ⟨saturate (line + 1), base.column⟩
    match rest with
    | [] => return (⟨generated, none⟩, base)
    | d₁ :: d₂ :: d₃ :: tail =>
      if 1 < tail.length then throw (.count (tail.length + 4))
      let index := moved base.source d₁
      match sources[index.toNat]? with
      | none => throw (.source index)
      | some source =>
        let base := { base with
          source := index
          sourceLine := moved base.sourceLine d₂
          sourceColumn := moved base.sourceColumn d₃ }
        let (name, base) ← readName names base tail
        let place : Place := ⟨saturate (base.sourceLine.toNat + 1), base.sourceColumn⟩
        return (⟨generated, some ⟨source, place, name⟩⟩, base)
    | _ => throw (.count (rest.length + 1))

/-- Reads the segments of one line; an empty segment says nothing. -/
def readLine (sources names : Array String) (line : Nat) (base : Base) :
    List (List UInt8) → Except Fault (List Mapping × Base)
  | [] => .ok ([], base)
  | [] :: rest => readLine sources names line base rest
  | segment :: rest => do
    let numbers ← (Vlq.decode segment).mapError Fault.number
    let (mapping, base) ← readNumbers sources names line base numbers
    let (more, base) ← readLine sources names line base rest
    return (mapping :: more, base)

/-- Reads lines, the first of which has index `line`. Columns begin anew on each line. -/
def readLines (sources names : Array String) (line : Nat) (base : Base) :
    List (List UInt8) → Except Fault (List Mapping)
  | [] => .ok []
  | bytes :: rest => do
    let segments := bytes.splitOn 44
    let (mappings, base) ← readLine sources names line { base with column := 0 } segments
    let more ← readLines sources names (line + 1) base rest
    return mappings ++ more

/-- The mappings of a text, in its order. -/
def read (sources names : Array String) (text : List Char) : Except Fault (List Mapping) :=
  readLines sources names 0 Base.start ((Text.Utf8.encode text).splitOn 59)

end StylePrint.SourceMap.Segments
