import StylePrint.SourceMap.Reading
import StylePrint.Text.Utf8
import StylePrint.UrlPath
/-!
Computations that read and write files and take standard input, one request at a time, and the
working folder they can be run in. A folder holds text files; a directory exists when a file lies
below it.

A write goes well or changes nothing: it fails where its file cannot be opened, and only there. A
file that is emptied and then cannot be filled, as on a full disk, is left out, and so are links.
-/

namespace StylePrint.CommandLine

open StylePrint.SourceMap

/-! ### Requests -/

/-- A computation that may read files, write files and take standard input. -/
inductive Act (α : Type) where
  | done (value : α)
  | read (path : String) (next : Except ReadFault String → Act α)
  /-- Writes a file, and goes on with whether that went well. One that did not has changed
  nothing. -/
  | write (path content : String) (next : Bool → Act α)
  /-- Takes standard input, if it is text. -/
  | input (next : Option String → Act α)

namespace Act

/-- Goes on with the value of a computation. -/
protected def bind {α β : Type} : Act α → (α → Act β) → Act β
  | .done value, f => f value
  | .read path next, f => .read path fun answer => (next answer).bind f
  | .write path content next, f => .write path content fun ok => (next ok).bind f
  | .input next, f => .input fun text => (next text).bind f

instance : Monad Act where
  pure := .done
  bind := Act.bind

/-- A computation that only reads. -/
def ofReading {α : Type} : Reading α → Act α
  | .done value => .done value
  | .ask path next => .read path fun answer => ofReading (next answer)

end Act

/-! ### The working folder -/

/-- The text files of a working folder, each with its path as segments. -/
structure Folder where
  files : List (List UrlPath.Segment × String)
  deriving DecidableEq, Repr

namespace Folder

/-- A folder with files of the given names. -/
def ofList (files : List (String × String)) : Folder :=
  ⟨files.map fun file => (file.1.toList.splitOn '/', file.2)⟩

/-- The files of a folder with their names. -/
def toList (f : Folder) : List (String × String) :=
  f.files.map fun file => (String.ofList (['/'].intercalate file.1), file.2)

/-- Whether a path is that of a directory: the folder itself, or the beginning of a file's path. -/
def isDirectory (f : Folder) (path : List UrlPath.Segment) : Bool :=
  path.isEmpty || f.files.any fun file => path.isPrefixOf file.1 && path ≠ file.1

/-- Goes from a directory of the folder to another one; `none` when that does not exist or lies
outside. -/
def enter (f : Folder) (directory : List UrlPath.Segment) (segment : UrlPath.Segment) :
    Option (List UrlPath.Segment) :=
  if segment = [] ∨ segment = UrlPath.here then some directory
  else if segment = UrlPath.up then (if directory = [] then none else some directory.dropLast)
  else if f.isDirectory (directory ++ [segment]) then some (directory ++ [segment])
  else none

/-- The greatest number of bytes in the name of a file. -/
def maxNameLength : Nat := 255

/-- Whether a segment can be the name of a file. -/
def isFileName (segment : UrlPath.Segment) : Bool :=
  segment ≠ [] && segment ≠ UrlPath.here && segment ≠ UrlPath.up
    && (Text.Utf8.encode segment).length ≤ maxNameLength

/-- The greatest number of bytes in a path. -/
def maxPathLength : Nat := 4095

/-- Where a path leads, if that can be a file in some directory of the folder. A path that is too
long leads nowhere, however few directories it passes. -/
def locate? (f : Folder) (path : String) : Option (List UrlPath.Segment) := do
  let cs := path.toList
  let segments := cs.splitOn '/'
  let name ← segments.getLast?
  if UrlPath.isRooted cs ∨ ¬ isFileName name ∨ maxPathLength < (Text.Utf8.encode cs).length then
    none
  else
    let directory ← segments.dropLast.foldlM f.enter []
    let path := directory ++ [name]
    if f.isDirectory path then none else return path

/-- The content of the file at a path. -/
def read (f : Folder) (path : String) : Except ReadFault String :=
  match (f.locate? path).bind fun place => f.files.lookup place with
  | some content => .ok content
  | none => .error .notFound

/-- Puts a file at a path; `none`, and so no change, when no file can be there. -/
def write? (f : Folder) (path content : String) : Option Folder := do
  let path ← f.locate? path
  return ⟨(path, content) :: f.files.filter fun file => file.1 ≠ path⟩

end Folder

/-- Runs a computation in a folder: its value, and the folder afterwards. -/
def Act.run {α : Type} (input : Option String) (folder : Folder) : Act α → α × Folder
  | .done value => (value, folder)
  | .read path next => (next (folder.read path)).run input folder
  | .write path content next =>
    match folder.write? path content with
    | some folder => (next true).run input folder
    | none => (next false).run input folder
  | .input next => (next input).run input folder

end StylePrint.CommandLine
