/-!
Computations that read files. A `Reading` is either done or asks for the file at a path and goes on
with what it is given, so it can be run against any reader, and what it asks for can be told.
-/

namespace StylePrint.SourceMap

/-- Why a file could not be read. -/
inductive ReadFault where
  | notFound
  | unreadable
  deriving DecidableEq, Repr

/-- The wording of a cause. -/
def ReadFault.message : ReadFault → String
  | .notFound => "not found"
  | .unreadable => "unreadable"

/-- Gives the content of the file at a path, or says why there is none. -/
abbrev Reader := String → Except ReadFault String

/-- A computation that may ask for files. -/
inductive Reading (α : Type) where
  | done (value : α)
  | ask (path : String) (next : Except ReadFault String → Reading α)

namespace Reading

/-- Goes on with the value of a computation. -/
protected def bind {α β : Type} : Reading α → (α → Reading β) → Reading β
  | .done value, f => f value
  | .ask path next, f => .ask path fun answer => (next answer).bind f

instance : Monad Reading where
  pure := .done
  bind := Reading.bind

/-- Runs a computation against a reader: its value, and the paths it asks for in order. -/
def run {α : Type} (reader : Reader) : Reading α → α × List String
  | .done value => (value, [])
  | .ask path next =>
    let (value, asked) := (next (reader path)).run reader
    (value, path :: asked)

/-- The value of a computation run against a reader. -/
def value {α : Type} (x : Reading α) (reader : Reader) : α := (x.run reader).1

/-- The paths a computation asks a reader for, in order. -/
def asked {α : Type} (x : Reading α) (reader : Reader) : List String := (x.run reader).2

/-- Asks for the file at a path. -/
def file (path : String) : Reading (Except ReadFault String) :=
  .ask path .done

end Reading

end StylePrint.SourceMap
