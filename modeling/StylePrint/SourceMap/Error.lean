import StylePrint.SourceMap.Segments
import StylePrint.SourceMap.Reading
import StylePrint.Text.Base64
/-!
What can go wrong with source maps, by cause, and the wording of each cause.
-/

namespace StylePrint.SourceMap

/-- Why a data address holds no map. -/
inductive DataUriFault where
  | noComma
  | mediaType (name : String)
  | utf8 (fault : Text.Utf8.Fault)
  | percent (index : Nat)
  deriving DecidableEq, Repr

/-- The wording of a fault of a data address. -/
def DataUriFault.message : DataUriFault → String
  | .noComma => "missing ',' separator"
  | .mediaType name => "unexpected media type `" ++ name ++ "`"
  | .utf8 fault => fault.message
  | .percent index => "bad percent escape at byte " ++ toString index

/-- What can go wrong with source maps. -/
inductive MapError where
  | mapping (fault : MappingFault)
  | codec (fault : Segments.Fault)
  /-- The map is of another revision than the third. -/
  | revision (version : UInt32)
  | dataUri (fault : DataUriFault)
  | json
  | base64 (fault : Text.Base64.Fault)
  | read (path : String) (fault : ReadFault)
  /-- The map is at an absolute address. -/
  | remote (address : String)
  deriving DecidableEq, Repr

/-- The wording of an error. -/
def MapError.message : MapError → String
  | .mapping fault => "Invalid mapping: " ++ fault.message
  | .codec fault => "Invalid source map: " ++ fault.message
  | .revision version =>
    "Unsupported source map version " ++ toString version.toNat ++ " (expected 3)"
  | .dataUri fault => "Invalid source map data URI: " ++ fault.message
  | .json => "Invalid source map JSON"
  | .base64 fault => "Invalid base64 in source map data URI: " ++ fault.message
  | .read path fault => "Failed to read source map " ++ path ++ ": " ++ fault.message
  | .remote address =>
    "Failed to read source map " ++ address ++ ": remote source maps are not fetched"

end StylePrint.SourceMap
