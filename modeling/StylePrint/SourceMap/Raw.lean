import StylePrint.Json.Printer
import StylePrint.Json.Record
import StylePrint.Json.Written
/-!
The written form of a source map: a JSON record of the third revision of the format.
`RawMap.text` writes it with its fields in a fixed order; `RawMap.parse?` reads any order.
-/

namespace StylePrint.SourceMap

/-- A source map as it is written. -/
structure RawMap where
  version : UInt32
  sources : List String
  names : List String
  mappings : String
  file : Option String
  sourceRoot : Option String
  sourcesContent : Option (List (Option String))
  deriving DecidableEq, Repr

namespace RawMap

/-- The names of the fields, in the order in which they are written. -/
def fieldNames : List String :=
  ["version", "sources", "names", "mappings", "file", "sourceRoot", "sourcesContent"]

/-- A member for an optional value, left out when there is none. -/
def member? (name : String) (value : Option Json) : List (String × Json) :=
  (value.map (name, ·)).toList

/-- The JSON value of a map. -/
def toJson (m : RawMap) : Json :=
  .object <|
    [("version", .word m.version),
     ("sources", .array (m.sources.map .string)),
     ("names", .array (m.names.map .string)),
     ("mappings", .string m.mappings)]
    ++ member? "file" (m.file.map .string)
    ++ member? "sourceRoot" (m.sourceRoot.map .string)
    ++ member? "sourcesContent" (m.sourcesContent.map fun contents =>
        .array (contents.map .orNull))

/-- The text of a map. -/
def text (m : RawMap) : String :=
  m.toJson.text

/-- Reads a map from a JSON value. -/
def ofJson? (j : Json) : Option RawMap := do
  let field ← j.fields? fieldNames
  let version ← Json.required Json.word? (field "version")
  let sources ← Json.required Json.strings? (field "sources")
  let names ← Json.defaulted Json.strings? [] (field "names")
  let mappings ← Json.required Json.string? (field "mappings")
  let file ← Json.optional Json.string? (field "file")
  let sourceRoot ← Json.optional Json.string? (field "sourceRoot")
  let sourcesContent ← Json.optional Json.nullableStrings? (field "sourcesContent")
  return { version, sources, names, mappings, file, sourceRoot, sourcesContent }

/-- Reads a map from text. No field may stand twice; what other members hold is not looked at. -/
def parse? (text : String) : Option RawMap := do
  let written ← Json.Written.parse? text
  ofJson? (← written.record? fieldNames)

end RawMap

end StylePrint.SourceMap
