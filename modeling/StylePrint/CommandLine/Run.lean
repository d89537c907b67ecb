import StylePrint.CommandLine.Act
import StylePrint.CommandLine.Arguments
import StylePrint.Config
import StylePrint.Session
/-!
A run of the command line: the options come from the configuration file and the switches, the tree
from a file or standard input, and the printed text goes to standard output or into a file. A map
goes into the text itself, or into a file beside the output. Standard output is taken to accept
every text, so no run fails there.
-/

namespace StylePrint.CommandLine

open StylePrint.SourceMap

/-! ### Failures -/

/-- Why a run fails. -/
inductive Failure where
  | readConfig (path : String)
  | config (path : String) (fault : Config.Fault)
  | readTree (name : String)
  | notJson
  | print (error : PrintError)
  | write (path : String)
  deriving DecidableEq, Repr

/-- The wording of a failure. -/
def Failure.message : Failure → String
  | .readConfig path => "Failed to read config file " ++ path
  | .config path _ => "Invalid config file " ++ path
  | .readTree name => "Failed to read AST from " ++ name
  | .notJson => "Input is not valid JSON"
  | .print _ => "Failed to stringify AST"
  | .write path => "Failed to write " ++ path

/-- A computation of the command line. -/
abbrev Step := ExceptT Failure Act

/-- Reads a file, or fails as the caller says. -/
def readFile (path : String) (failure : Failure) : Step String := do
  match ← (Act.read path .done : Act _) with
  | .ok text => return text
  | .error _ => throw failure

/-- Writes a file. -/
def writeFile (path content : String) : Step Unit := do
  if ← (Act.write path content .done : Act Bool) then return () else throw (.write path)

/-! ### Options and input -/

/-- Options as the switches and values of the command line change them. A map that the
configuration asks for keeps its form. -/
def override (a : Arguments) (o : Options) : Options :=
  { o with
    compress := o.compress || a.compress
    sourcemap := if a.sourcemap ∧ ¬ o.wantsMap then .written else o.sourcemap
    indent := a.indent.or o.indent
    inputSourcemaps := o.inputSourcemaps && !a.noInputSourcemaps }

/-- The options of a run. -/
def loadOptions (a : Arguments) : Step Options := do
  match a.config with
  | none => return override a {}
  | some path =>
    let text ← readFile path (.readConfig path)
    match Config.parse text with
    | .ok o => return override a o
    | .error fault => throw (.config path fault)

/-- The text of the tree. -/
def loadTree (a : Arguments) : Step String := do
  let path := a.input.getD "-"
  if path = "-" then
    match ← (Act.input .done : Act (Option String)) with
    | some text => return text
    | none => throw (.readTree "stdin")
  else readFile path (.readTree path)

/-! ### Output -/

/-- The line that links a text to the map at an address. -/
def linkLine (address : String) : String :=
  "\n/*# sourceMappingURL=" ++ address ++ " */"

/-- The address that holds a map. -/
def inlineAddress (map : RawMap) : String :=
  "data:application/json;base64,"
    ++ String.ofList (Text.Base64.encode (Text.Utf8.encode map.text.toList))

/-- The file name in a path: what stands behind the last slash. -/
def fileName (path : String) : String :=
  String.ofList ((path.toList.splitOn '/').getLast?.getD [])

/-- Puts a printed tree out: into the output file and the map file beside it, or onto standard
output, whose text is the value. A file may refuse its text, standard output never does. -/
def putOut (printed : Printed) : Option String → Step String
  | none =>
    let link := (printed.map.map fun map => linkLine (inlineAddress map.toRaw)).getD ""
    return printed.code ++ link ++ "\n"
  | some path => do
    let mapPath := path ++ ".map"
    let link ← match printed.map with
      | none => pure ""
      | some map => do
        writeFile mapPath map.toRaw.text
        pure (linkLine (fileName mapPath))
    writeFile path (printed.code ++ link ++ "\n")
    return ""

/-! ### Runs -/

/-- A run with given arguments; the value is the text for standard output. -/
def execute (a : Arguments) : Step String := do
  let options ← loadOptions a
  let text ← loadTree a
  match Json.parse? text with
  | none => throw .notJson
  | some tree =>
    match ← (Act.ofReading (stringifyJson options tree) : Act _) with
    | .ok printed => putOut printed a.output
    | .error e => throw (.print e)

/-- What a run shows. -/
structure Outcome where
  status : Nat
  stdout : String
  failure : Option Failure := none
  deriving DecidableEq, Repr

/-- The name and number of this program. -/
def versionLine : String := "css-stringify 0.1.0\n"

/-- How the program is called. -/
def usage : String := "Usage: css-stringify [OPTIONS] [INPUT]\n"

/-- What the program says of itself and of each word it knows. -/
def helpText : String :=
  "Turn a CSS syntax tree (JSON) back into CSS\n\n" ++ usage ++
  "\nArguments:\n" ++
  "  [INPUT]  JSON AST file ('-' or absent for stdin)\n" ++
  "\nOptions:\n" ++
  "  -o, --output <OUTPUT>      Write CSS to FILE instead of stdout\n" ++
  "      --compress             Omit optional whitespace and comments\n" ++
  "      --sourcemap            " ++
    "Emit a source map (inline without --output, FILE.map with it)\n" ++
  "      --indent <STR>         Indentation unit for uncompressed output\n" ++
  "      --no-input-sourcemaps  " ++
    "Do not chain source maps referenced by the original sources\n" ++
  "      --config <FILE>        TOML file with stringify options\n" ++
  "  -h, --help                 Print help\n" ++
  "  -V, --version              Print version\n"

/-- The program: what it does with the words of its command line. -/
def program (args : List String) : Act Outcome := do
  match Invocation.ofWords args with
  | .version => return { status := 0, stdout := versionLine }
  | .help => return { status := 0, stdout := helpText }
  | .refused => return { status := 2, stdout := "" }
  | .run a =>
    match ← (execute a).run with
    | .ok stdout => return { status := 0, stdout }
    | .error failure => return { status := 1, stdout := "", failure := some failure }

end StylePrint.CommandLine
