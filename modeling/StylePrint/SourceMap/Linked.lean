import StylePrint.SourceMap.LinkComment
import StylePrint.SourceMap.DataUri
import StylePrint.SourceMap.Raw
import StylePrint.UrlPath
/-!
The map that a text links to through its annotation: inside the annotation itself, or in a file
whose path is read from the directory of the text.
-/

namespace StylePrint.SourceMap

/-! ### Links -/

/-- A map found through an annotation. -/
structure LinkedMap where
  map : RawMap
  /-- The address as the annotation writes it. -/
  address : String
  /-- The path that the map's sources are relative to: that of the map's file, or that of the text
  when the annotation holds the map. -/
  relativeTo : String
  deriving DecidableEq, Repr

/-- The guard that may stand in front of a map's text. -/
def guardChars : List Char := [')', ']', '}', '\x27']

/-- Reads the text of a linked map, with or without the guard. -/
def parseGuarded (text : String) : Except MapError RawMap :=
  let text := ((LinkComment.after? guardChars text.toList).map String.ofList).getD text
  match RawMap.parse? text with
  | some map => .ok map
  | none => .error .json

/-- The text of the file at a path. -/
def fileText (path : String) : ExceptT MapError Reading String := do
  match ← Reading.file path with
  | .ok text => return text
  | .error fault => throw (.read path fault)

/-- Loads the map at an address that stands in the text at `path`. -/
def load (address path : String) : ExceptT MapError Reading LinkedMap := do
  if UrlPath.isData address.toList then
    let text ← DataUri.decode (address.toList.drop 5)
    let map ← parseGuarded text
    return ⟨map, address, path⟩
  else if UrlPath.isAbsolute address then throw (.remote address)
  else
    let mapPath := UrlPath.join (UrlPath.directory path) address
    let text ← fileText mapPath
    let map ← parseGuarded text
    return ⟨map, address, mapPath⟩

/-- The map that the text at `path` links to, if it links to any. -/
def linkedMap? (code path : String) : ExceptT MapError Reading (Option LinkedMap) := do
  match LinkComment.address? code with
  | none => return none
  | some address => some <$> load address path

end StylePrint.SourceMap
