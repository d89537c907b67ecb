import StylePrint.CommandLine.Run
/-!
The command line on the real file system: requests are answered from disk and standard input.
-/

namespace StylePrint.CommandLine

/-- Reads the file at a path. -/
def readFromDisk (path : String) : IO (Except SourceMap.ReadFault String) := do
  try
    return .ok (← IO.FS.readFile path)
  catch
    | .noFileOrDirectory .. => return .error .notFound
    | _ => return .error .unreadable

/-- Writes the file at a path, and tells whether that went well. -/
def writeToDisk (path content : String) : IO Bool := do
  try
    IO.FS.writeFile path content
    return true
  catch _ => return false

/-- Takes all of standard input, if it is text. -/
def readStdin : IO (Option String) := do
  try
    return some (← (← IO.getStdin).readToEnd)
  catch _ => return none

/-- Answers the requests of a computation. -/
def Act.perform {α : Type} : Act α → IO α
  | .done value => return value
  | .read path next => do (next (← readFromDisk path)).perform
  | .write path content next => do (next (← writeToDisk path content)).perform
  | .input next => do (next (← readStdin)).perform

end StylePrint.CommandLine

open StylePrint.CommandLine in
/-- Runs the program and tells of a failure on standard error. -/
def main (args : List String) : IO UInt32 := do
  let outcome ← (program args).perform
  IO.print outcome.stdout
  match outcome.failure with
  | some failure => IO.eprintln ("Error: " ++ failure.message)
  | none => if outcome.status = 2 then IO.eprint usage
  return UInt32.ofNat outcome.status
