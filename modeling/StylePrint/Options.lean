import StylePrint.Json.Printer
import StylePrint.Layout.Basic
/-!
What a caller may ask for: the layout, the unit of indentation, whether and in which form a source
map is wanted, and whether the maps of the sources are followed. Options that are not known here
are kept as they are.
-/

namespace StylePrint

/-- Whether a source map is made, and in which form. -/
inductive MapForm where
  | none
  /-- The written form. -/
  | written
  /-- The draft, open to further mappings. -/
  | draft
  deriving DecidableEq, Repr

/-- Why options are refused. -/
inductive OptionsFault where
  | malformed
  | unknownMapForm (name : String)
  deriving DecidableEq, Repr

/-- The wording of a refusal. -/
def OptionsFault.message : OptionsFault → String
  | .malformed => "malformed options"
  | .unknownMapForm name =>
    "unknown sourcemap mode `" ++ name ++ "` (expected true, false or \"generator\")"

namespace MapForm

/-- The JSON of a form. -/
def toJson : MapForm → Json
  | .none => .bool false
  | .written => .bool true
  | .draft => .string "generator"

/-- Reads a form. -/
def ofJson : Json → Except OptionsFault MapForm
  | .null => .ok .none
  | .bool false => .ok .none
  | .bool true => .ok .written
  | .string name => if name = "generator" then .ok .draft else .error (.unknownMapForm name)
  | _ => .error .malformed

end MapForm

/-- What a caller asks for. -/
structure Options where
  compress : Bool := false
  sourcemap : MapForm := .none
  /-- The unit of indentation, when it is not the usual one. -/
  indent : Option String := none
  /-- Whether the maps that sources link to are followed. -/
  inputSourcemaps : Bool := true
  /-- The options not known here, in ascending order of name. -/
  extra : List (String × Json) := []
  deriving Repr

/-- A choice that a caller makes in code. -/
inductive Setting where
  | compress (wanted : Bool)
  | sourcemap (form : MapForm)
  | indent (unit : String)
  | inputSourcemaps (wanted : Bool)
  deriving DecidableEq, Repr

namespace Options

/-- Makes a choice in place of an earlier one. -/
def set (o : Options) : Setting → Options
  | .compress wanted => { o with compress := wanted }
  | .sourcemap form => { o with sourcemap := form }
  | .indent unit => { o with indent := some unit }
  | .inputSourcemaps wanted => { o with inputSourcemaps := wanted }

/-- The usual unit of indentation. -/
def usualIndent : String := "  "

/-- The unit of indentation. -/
def indentation (o : Options) : String := o.indent.getD usualIndent

/-- The layout asked for. -/
def layout (o : Options) : Layout := if o.compress then .compact else .readable

/-- Whether a source map is asked for. -/
def wantsMap (o : Options) : Bool := o.sourcemap ≠ .none

/-- Whether the options are those of a caller who asks for nothing. -/
def isDefault (o : Options) : Bool :=
  !o.compress && o.sourcemap = .none && o.indent.isNone && o.inputSourcemaps && o.extra.isEmpty

/-! ### JSON -/

/-- The JSON of options: the known ones first, then the others. -/
def toJson (o : Options) : Json :=
  .object <|
    [("compress", .bool o.compress), ("sourcemap", o.sourcemap.toJson)]
    ++ (o.indent.map fun s => ("indent", Json.string s)).toList
    ++ [("inputSourcemaps", .bool o.inputSourcemaps)] ++ o.extra

/-- Takes in one member. -/
def take (o : Options) (name : String) (value : Json) : Except OptionsFault Options :=
  if name = "compress" then
    match value.bool? with
    | some b => .ok { o with compress := b }
    | none => .error .malformed
  else if name = "sourcemap" then
    (MapForm.ofJson value).map fun form => { o with sourcemap := form }
  else if name = "indent" then
    match Json.optional Json.string? (some value) with
    | some indent => .ok { o with indent }
    | none => .error .malformed
  else if name = "inputSourcemaps" then
    match value.bool? with
    | some b => .ok { o with inputSourcemaps := b }
    | none => .error .malformed
  else .ok { o with extra := Json.insertMember name value o.extra }

/-- Reads options; of several faults the first member's counts. -/
def ofJson : Json → Except OptionsFault Options
  | .object members => members.foldlM (fun o member => o.take member.1 member.2) {}
  | _ => .error .malformed

end Options

end StylePrint
