import StylePrint.SourceMap.Error
import StylePrint.Text.Percent
/-!
Text inside an address: what stands behind `data:` is a media type with parameters, a comma, and
the text itself, in Base64 when a parameter says so and with percent escapes otherwise.
-/

namespace StylePrint.SourceMap.DataUri

/-- The text that UTF-8 bytes stand for. -/
def textOf (bytes : List UInt8) : Except MapError String :=
  match Text.Utf8.decode bytes with
  | .ok cs => .ok (String.ofList cs)
  | .error fault => .error (.dataUri (.utf8 fault))

/-- The bytes of a payload. -/
def payload (base64 : Bool) (cs : List Char) : Except MapError (List UInt8) :=
  if base64 then (Text.Base64.decode (Text.Utf8.encode cs)).mapError .base64
  else (Text.Percent.decode cs).mapError fun index => .dataUri (.percent index)

/-- The media types under which a map may travel. -/
def isMapType (mediaType : List Char) : Bool :=
  ["", "application/json", "text/json"].any fun name => name.toList = mediaType

/-- The text of a data address, given what stands behind its scheme. -/
def decode (cs : List Char) : Except MapError String :=
  match cs.dropWhile (· ≠ ',') with
  | [] => .error (.dataUri .noComma)
  | _ :: body =>
    let parts := (cs.takeWhile (· ≠ ',')).splitOn ';'
    let mediaType := parts.head?.getD []
    if isMapType mediaType then do
      let bytes ← payload (parts.tail.contains "base64".toList) body
      textOf bytes
    else .error (.dataUri (.mediaType (String.ofList mediaType)))

end StylePrint.SourceMap.DataUri
