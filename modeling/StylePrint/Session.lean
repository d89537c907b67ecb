import StylePrint.Printer
import StylePrint.Sheet.Canonical
import StylePrint.Sheet.Decode
/-!
A session prints trees under one set of options. Without a map, a tree that was printed before is
answered from memory, where trees are known by their canonical text; with a map each tree is
printed anew, because remembered text would leave the tracker without mappings.
-/

namespace StylePrint

open StylePrint.SourceMap

/-- What can go wrong when a tree is printed. -/
inductive PrintError where
  | noTree
  /-- The JSON given is no tree. -/
  | malformedTree
  | noTracker
  | alreadyApplied
  | map (error : MapError)
  deriving DecidableEq, Repr

namespace PrintError

/-- The wording of an error. -/
def message : PrintError → String
  | .noTree => "AST node is required for compilation"
  | .malformedTree => "Invalid stylesheet AST"
  | .noTracker => "Source map finalized out of order: no source map tracker was attached"
  | .alreadyApplied => "Source map finalized out of order: source maps were already applied"
  | .map error => "Source map error: " ++ error.message

/-- A refused mapping as an error of printing. -/
def ofMapping (fault : MappingFault) : PrintError := .map (.mapping fault)

/-- A failure to apply maps as an error of printing. -/
def ofApply : Tracker.ApplyFault → PrintError
  | .alreadyApplied => .alreadyApplied
  | .map error => .map error

end PrintError

/-- A finished map, in the form asked for. -/
inductive FinishedMap where
  | draft (draft : Draft)
  | written (map : RawMap)
  deriving DecidableEq, Repr

/-- The written form of a finished map. -/
def FinishedMap.toRaw : FinishedMap → RawMap
  | .draft d => d.finish
  | .written raw => raw

/-- A printed tree, with its map if one was asked for. -/
structure Printed where
  code : String
  map : Option FinishedMap
  deriving DecidableEq, Repr

/-- A session. -/
structure Session where
  options : Options
  printer : Printer
  /-- The texts of trees printed so far, by their canonical text. -/
  memory : List (String × String) := []
  /-- How often a tree has been printed, failures included. -/
  renders : Nat := 0
  deriving Repr

namespace Session

/-- A session that has printed nothing. -/
def start (options : Options) : Session :=
  { options, printer := Printer.start options }

/-- Remembers the text of a tree in place of any other. -/
def remember (memory : List (String × String)) (key code : String) : List (String × String) :=
  (key, code) :: memory.filter fun entry => entry.1 ≠ key

/-- Prints a tree and remembers its text. -/
def render (s : Session) (node : Sheet.Node) : Session × Except PrintError String :=
  let (printer, outcome) := s.printer.print s.options.layout node
  let s := { s with printer, renders := s.renders + 1 }
  match outcome with
  | .ok code => ({ s with memory := remember s.memory node.key code }, .ok code)
  | .error fault => (s, .error (.ofMapping fault))

/-- The text of a tree, from memory when it was printed before. -/
def compile (s : Session) (node : Sheet.Node) : Session × Except PrintError String :=
  match s.memory.lookup node.key with
  | some code => (s, .ok code)
  | none => s.render node

/-- The map of a finished draft, in the form asked for. -/
def mapOf (form : MapForm) (draft : Draft) : FinishedMap :=
  match form with
  | .draft => .draft draft
  | _ => .written draft.finish

/-- Prints a tree while a new tracker follows, and finishes its map. -/
def printWithMap (s : Session) (node : Sheet.Node) :
    Reading (Session × Except PrintError Printed) :=
  let attached := { s with printer := s.printer.attach (Tracker.start s.options) }
  let (rendered, outcome) := attached.render node
  let detached := { rendered with printer := rendered.printer.detach }
  match rendered.printer.tracker, outcome with
  | none, _ => return (detached, .error .noTracker)
  | some _, .error e => return (detached, .error e)
  | some tracker, .ok code => do
    let (tracker, fault) ← tracker.applyMaps
    match fault with
    | some fault => return (detached, .error (.ofApply fault))
    | none => return (detached, .ok ⟨code, some (mapOf s.options.sourcemap tracker.draft)⟩)

/-- Prints a tree, which may be absent, as the options ask. -/
def stringify (s : Session) : Option Sheet.Node → Reading (Session × Except PrintError Printed)
  | none => return (s, .error .noTree)
  | some node =>
    if s.options.wantsMap then s.printWithMap node
    else
      let (s, outcome) := s.compile node
      return (s, outcome.map fun code => ⟨code, none⟩)

end Session

/-- Prints one tree. -/
def stringify (options : Options) (node : Option Sheet.Node) :
    Reading (Except PrintError Printed) :=
  Prod.snd <$> (Session.start options).stringify node

/-- Prints one tree that is given as JSON, where `null` is the absent tree. -/
def stringifyJson (options : Options) (j : Json) : Reading (Except PrintError Printed) :=
  match j with
  | .null => return .error .noTree
  | j =>
    match Sheet.Node.ofJson? j with
    | none => return .error .malformedTree
    | some node => stringify options (some node)

end StylePrint
