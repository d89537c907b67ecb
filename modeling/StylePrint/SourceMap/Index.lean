import StylePrint.SourceMap.Error
import StylePrint.SourceMap.Raw
import StylePrint.UrlPath
/-!
A map that can be asked where a generated place came from. The mappings are decoded and stand in
the order of their generated places; a place that is mapped answers for itself, and a place between
mappings with the last one before it on its line.
-/

namespace StylePrint.SourceMap

/-- A decoded map. -/
structure Index where
  file : Option String
  /-- The sources, read from the root of the map when it has one. -/
  sources : List String
  contents : List (Option String)
  /-- The mappings in ascending order of their generated places; equal places keep their order. -/
  mappings : List Mapping
  deriving DecidableEq, Repr

namespace Index

/-- A source of a map, read from the map's root unless that is missing or empty. -/
def rooted (root : Option String) (source : String) : String :=
  match root with
  | some root => if root = "" then source else UrlPath.join root source
  | none => source

/-- Whether a mapping may stand before another. -/
def notAfter (a b : Mapping) : Bool :=
  (a.generated.order b.generated).isLE

/-- Decodes a map of the third revision. -/
def ofRaw (raw : RawMap) : Except MapError Index :=
  if raw.version ≠ 3 then .error (.revision raw.version)
  else
    let sources := raw.sources.map (rooted raw.sourceRoot)
    match Segments.read sources.toArray raw.names.toArray raw.mappings.toList with
    | .error fault => .error (.codec fault)
    | .ok mappings => .ok {
        file := raw.file
        sources
        contents := raw.sourcesContent.getD []
        mappings := mappings.mergeSort notAfter }

/-- Decodes the text of a map. -/
def parse (text : String) : Except MapError Index :=
  match RawMap.parse? text with
  | some raw => ofRaw raw
  | none => .error .json

/-- The content that the map carries for a source: what stands at the place of the first source of
that name. -/
def contentOf (index : Index) (source : String) : Option String :=
  (index.sources.idxOf? source).bind fun i => index.contents[i]?.join

/-- The mapping that answers for a place: the first one at the place itself, else the last one
before it on its line. -/
def closest? (mappings : List Mapping) (place : Place) : Option Mapping :=
  match mappings.find? fun m => m.generated = place with
  | some hit => some hit
  | none => (mappings.filter fun m =>
      m.generated.line = place.line && m.generated.column < place.column).getLast?

/-- Where a generated place came from. -/
def origin? (index : Index) (place : Place) : Option Origin :=
  (closest? index.mappings place).bind Mapping.origin

end Index

end StylePrint.SourceMap
