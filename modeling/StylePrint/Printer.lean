import StylePrint.Tracker
/-!
Printing: a printer takes the steps of a layout one by one and keeps the text written so far, the
level of nesting, and a tracker when one is attached. A mark that the tracker refuses stops it.
-/

namespace StylePrint

open StylePrint.SourceMap

/-- The state of a printer. -/
structure Printer where
  /-- The unit of indentation. -/
  unit : String
  /-- The level of nesting; the outermost is one. -/
  level : Nat := 1
  written : String := ""
  tracker : Option Tracker := none
  deriving DecidableEq, Repr

namespace Printer

open StylePrint.Layout

/-- A printer that nothing is attached to. -/
def start (options : Options) : Printer :=
  { unit := options.indentation }

/-- Attaches a tracker in place of any other. -/
def attach (p : Printer) (tracker : Tracker) : Printer :=
  { p with tracker := some tracker }

/-- Takes the tracker off. -/
def detach (p : Printer) : Printer :=
  { p with tracker := none }

/-- The indentation of the current level. -/
def margin (p : Printer) : String :=
  String.join (List.replicate (p.level - 1) p.unit)

/-- Writes text. -/
def write (p : Printer) (text : String) : Printer :=
  { p with written := p.written ++ text, tracker := p.tracker.map (·.advance text) }

/-- Takes one step. -/
def perform (p : Printer) : Step → Except MappingFault Printer
  | .mark position =>
    match p.tracker with
    | none => .ok p
    | some tracker => (tracker.mark position).map fun tracker => { p with tracker := some tracker }
  | .text content => .ok (p.write content)
  | .margin => .ok (p.write p.margin)
  | .nest => .ok { p with level := p.level + 1 }
  | .unnest => .ok { p with level := max (p.level - 1) 1 }

/-- Takes steps until one fails, and says how the last one went. -/
def run (p : Printer) : List Step → Printer × Option MappingFault
  | [] => (p, none)
  | step :: rest =>
    match p.perform step with
    | .ok p => p.run rest
    | .error fault => (p, some fault)

/-- Runs steps and gives the text they write. -/
def textOf (p : Printer) (steps : List Step) : Printer × Except MappingFault String :=
  match { p with written := "" }.run steps with
  | (p, none) => ({ p with written := "" }, .ok p.written)
  | (p, some fault) => ({ p with written := "" }, .error fault)

/-- Prints a node from the outermost level. -/
def print (p : Printer) (layout : Layout) (node : Sheet.Node) :
    Printer × Except MappingFault String :=
  { p with level := 1 }.textOf (layout.steps node)

/-- Writes a text that was read from a position, if one is given. -/
def emit (p : Printer) (text : String) (position : Option Sheet.Position) :
    Printer × Except MappingFault String :=
  p.textOf (marks position ++ [.text text])

end Printer

end StylePrint
