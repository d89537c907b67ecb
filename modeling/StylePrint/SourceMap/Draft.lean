import StylePrint.SourceMap.Index
/-!
A map in the making. Mappings are checked and collected in order, with the sources and names they
mention in order of first use; `Draft.chain` sends the mappings of one source on through another
map, and `Draft.finish` writes the whole down.
-/

namespace StylePrint.SourceMap

/-- Adds an element at the end of a list that does not have it yet. -/
def addNew {α : Type} [DecidableEq α] (items : List α) (item : α) : List α :=
  if item ∈ items then items else items ++ [item]

/-- A map in the making. -/
structure Draft where
  file : Option String := none
  sourceRoot : Option String := none
  /-- The sources of the mappings in order of first use. -/
  sources : List String := []
  /-- The names of the mappings in order of first use. -/
  names : List String := []
  /-- The mappings in the order in which they were added. -/
  mappings : Array Mapping := #[]
  /-- The contents of sources, at most one for each source. -/
  contents : List (String × String) := []
  deriving DecidableEq, Repr

namespace Draft

/-! ### Collecting -/

/-- Adds a checked mapping. -/
def record (draft : Draft) (mapping : Mapping) : Draft :=
  { draft with
    sources := mapping.source.elim draft.sources (addNew draft.sources)
    names := mapping.name.elim draft.names (addNew draft.names)
    mappings := draft.mappings.push mapping }

/-- Checks a proposed mapping and adds it. -/
def add (draft : Draft) (proposal : Proposal) : Except MappingFault Draft :=
  proposal.check.map draft.record

/-- Attaches the content of a source, or takes it away. -/
def setContent (draft : Draft) (source : String) (content : Option String) : Draft :=
  let others := draft.contents.filter fun entry => entry.1 ≠ source
  { draft with contents := (content.map (source, ·)).toList ++ others }

/-- The content attached to a source. -/
def contentOf (draft : Draft) (source : String) : Option String :=
  draft.contents.lookup source

/-! ### Chaining -/

/-- The name of an input map's source, read from the map's directory when that is given. -/
def located (directory : Option String) (source : String) : String :=
  match directory with
  | some directory => UrlPath.join directory source
  | none => source

/-- The origin that an input map of `file` gives for an origin; one of another source, or one that
the map does not place, stays. A name of the input map takes the place of the old one. -/
def reroute (index : Index) (file : String) (directory : Option String) (origin : Origin) :
    Origin :=
  if origin.source = file then
    match index.origin? origin.place with
    | some found =>
      ⟨located directory found.source, found.place, found.name.or origin.name⟩
    | none => origin
  else origin

/-- The sources of mappings in order of first use. -/
def sourcesOf (mappings : List Mapping) : List String :=
  (mappings.filterMap Mapping.source).foldl addNew []

/-- The names of mappings in order of first use. -/
def namesOf (mappings : List Mapping) : List String :=
  (mappings.filterMap Mapping.name).foldl addNew []

/-- Sends the mappings of `file` on through an input map of that file, and takes over the contents
the input map carries. -/
def chain (draft : Draft) (index : Index) (file : String) (directory : Option String) : Draft :=
  let mappings := draft.mappings.map fun m =>
    { m with origin := m.origin.map (reroute index file directory) }
  let draft := { draft with
    mappings
    sources := sourcesOf mappings.toList
    names := namesOf mappings.toList }
  index.sources.foldl (fun draft source =>
    match index.contentOf source with
    | some content => draft.setContent (located directory source) (some content)
    | none => draft) draft

/-! ### Writing -/

/-- Whether a mapping may be written before another. -/
def notAfter (a b : Mapping) : Bool :=
  (a.order b).isLE

/-- The mappings in the order in which they are written. -/
def sorted (draft : Draft) : List Mapping :=
  draft.mappings.toList.mergeSort notAfter

/-- The contents for the written form: one entry for each source, when any source has content. -/
def writtenContents (draft : Draft) : Option (List (Option String)) :=
  let contents := draft.sources.map draft.contentOf
  if contents.any Option.isSome then some contents else none

/-- The written form of the map. -/
def finish (draft : Draft) : RawMap where
  version := 3
  sources := draft.sources
  names := draft.names
  mappings := String.ofList (Segments.write draft.sources draft.names draft.sorted)
  file := draft.file
  sourceRoot := draft.sourceRoot
  sourcesContent := draft.writtenContents

end Draft

end StylePrint.SourceMap
