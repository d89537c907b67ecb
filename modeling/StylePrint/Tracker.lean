import StylePrint.Options
import StylePrint.SourceMap.Draft
import StylePrint.SourceMap.Linked
import StylePrint.Text.Units
/-!
Following printed text. A tracker knows the place that the text has reached; a mark ties that place
to a position of the tree, as a mapping of a map in the making. At the end `Tracker.applyMaps`
attaches the contents of the sources and sends the mappings on through the maps the sources link
to, once.
-/

namespace StylePrint

open StylePrint.SourceMap

/-- A tracker of printed text. -/
structure Tracker where
  /-- The line reached, from one on. -/
  line : UInt32 := 1
  /-- The column reached, from one on, in UTF-16 code units. -/
  column : UInt32 := 1
  draft : Draft := {}
  /-- The sources that came with content, in order of first sight. -/
  files : List (String × String) := []
  /-- Whether the maps that sources link to are followed. -/
  inputSourcemaps : Bool := true
  /-- Whether the maps have been applied. -/
  applied : Bool := false
  deriving DecidableEq, Repr

namespace Tracker

/-- The source name of positions that do not name their file. -/
def usualSource : String := "source.css"

/-- A tracker at the beginning of the text. -/
def start (options : Options) : Tracker :=
  { inputSourcemaps := options.inputSourcemaps }

/-! ### Places -/

/-- The characters behind the last line break; `none` when there is no line break. -/
def lastLine? : List Char → Option (List Char)
  | [] => none
  | c :: cs => (lastLine? cs).or (if c = '\n' then some cs else none)

/-- Goes past printed text. Line and column stop at the greatest word. -/
def advance (t : Tracker) (text : String) : Tracker :=
  let cs := text.toList
  { t with
    line := saturate (t.line.toNat + cs.count '\n')
    column := match lastLine? cs with
      | some last => saturate (Text.units last + 1)
      | none => saturate (t.column.toNat + Text.units cs) }

/-! ### Marks -/

/-- The name of the source that a position lies in, as a map writes it. -/
def sourceOf (position : Sheet.Position) : String :=
  UrlPath.ofFile ((position.source.filter (· ≠ "")).getD usualSource)

/-- Remembers the content of a source, unless one is remembered already. -/
def remember (files : List (String × String)) (source : String) :
    Option String → List (String × String)
  | none => files
  | some content =>
    if (files.map (·.1)).contains source then files else files ++ [(source, content)]

/-- Ties the place reached to a position of the tree. -/
def mark (t : Tracker) (position : Sheet.Position) : Except MappingFault Tracker :=
  let start := position.start
  if start.column = 0 then .error (.sourceColumnZero start.line start.column)
  else do
    let source := sourceOf position
    let draft ← t.draft.add {
      generated := ⟨t.line, saturate (t.column.toNat - 1)⟩
      sourcePlace := some ⟨start.line, start.column - 1⟩
      source := some source
      name := none }
    return { t with draft, files := remember t.files source position.content }

/-! ### The maps of the sources -/

/-- The map that a source links to, decoded, with the directory its sources are relative to. -/
def inputMap? (content source : String) : ExceptT MapError Reading (Option (Index × String)) := do
  match ← linkedMap? content source with
  | none => return none
  | some linked =>
    let index ← Index.ofRaw linked.map
    return some (index, UrlPath.directory (UrlPath.ofFile linked.relativeTo))

/-- Attaches the contents of sources to a draft and sends its mappings on through the maps the
sources link to, up to the first of them that fails. -/
def applyFiles (follow : Bool) : List (String × String) → Draft → Reading (Draft × Option MapError)
  | [], draft => return (draft, none)
  | (source, content) :: rest, draft => do
    let draft := draft.setContent source (some content)
    if follow then
      match ← (inputMap? content source).run with
      | .error e => return (draft, some e)
      | .ok none => applyFiles follow rest draft
      | .ok (some (index, directory)) =>
        applyFiles follow rest (draft.chain index source (some directory))
    else applyFiles follow rest draft

/-- Why the maps of a tracker's sources are not applied. -/
inductive ApplyFault where
  | alreadyApplied
  | map (error : MapError)
  deriving DecidableEq, Repr

/-- Applies the maps of the sources, which may be done once. -/
def applyMaps (t : Tracker) : Reading (Tracker × Option ApplyFault) :=
  if t.applied then return (t, some .alreadyApplied)
  else do
    let (draft, error) ← applyFiles t.inputSourcemaps t.files t.draft
    return ({ t with draft, applied := true }, error.map .map)

end Tracker

end StylePrint
