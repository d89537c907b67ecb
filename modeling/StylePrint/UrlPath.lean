/-!
Paths the way source maps write them: segments between slashes, relative, rooted, or behind a
scheme. `ofFile` brings a file path into this form, `directory` and `join` take paths apart and
together, and `normalize` drops the segments that say nothing.
-/

namespace StylePrint.UrlPath

/-- A part of a path between two slashes. -/
abbrev Segment := List Char

/-- The segment that stands for the directory itself. -/
def here : Segment := ['.']

/-- The segment that stands for the directory above. -/
def up : Segment := ['.', '.']

/-! ### Absolute addresses -/

/-- Whether the mark between a scheme and its authority occurs. -/
def hasSchemeMark : List Char → Bool
  | [] => false
  | c :: cs => [':', '/', '/'].isPrefixOf (c :: cs) || hasSchemeMark cs

/-- Whether characters begin a data address. -/
def isData (cs : List Char) : Bool :=
  ['d', 'a', 't', 'a', ':'].isPrefixOf cs

/-- Whether characters spell an absolute address: a data address or one with a scheme. -/
def isAbsoluteChars (cs : List Char) : Bool :=
  isData cs || hasSchemeMark cs

/-- Whether a path is an absolute address. -/
def isAbsolute (path : String) : Bool :=
  isAbsoluteChars path.toList

/-- Whether a path begins at the root. -/
def isRooted (cs : List Char) : Bool :=
  cs.head? = some '/'

/-! ### Normal form -/

/-- Takes one segment onto the segments so far, which stand last first. A name descends, `..` undoes
the last name, and where there is none it stays: at the root of a rooted path, above the start of
a relative one. -/
def push (rooted : Bool) (stack : List Segment) (segment : Segment) : List Segment :=
  if segment = [] ∨ segment = here then stack
  else if segment = up then
    match stack with
    | last :: rest => if last = up then (if rooted then stack else up :: stack) else rest
    | [] => if rooted then [] else [up]
  else segment :: stack

/-- The segments that are left of a path, in order. -/
def settle (rooted : Bool) (segments : List Segment) : List Segment :=
  (segments.foldl (push rooted) []).reverse

/-- The characters of a path with the given segments. -/
def spell (rooted : Bool) (segments : List Segment) : List Char :=
  let joined := ['/'].intercalate segments
  if rooted then '/' :: joined
  else if joined = [] then here
  else joined

/-- The characters of the normal form. -/
def normalizeChars (cs : List Char) : List Char :=
  if isAbsoluteChars cs then cs
  else spell (isRooted cs) (settle (isRooted cs) (cs.splitOn '/'))

/-- The path without empty segments, `.` and avoidable `..`; an absolute address stays as it is. -/
def normalize (path : String) : String :=
  String.ofList (normalizeChars path.toList)

/-! ### Directory and join -/

/-- Takes the slashes off the end. -/
def trimSlashes (cs : List Char) : List Char :=
  (cs.reverse.dropWhile (· = '/')).reverse

/-- The characters up to the last slash, without it; `none` when there is no slash. -/
def beforeLastSlash? (cs : List Char) : Option (List Char) :=
  match cs.reverse.dropWhile (· ≠ '/') with
  | [] => none
  | _ :: rest => some rest.reverse

/-- The characters of the directory part. -/
def directoryChars (cs : List Char) : List Char :=
  match trimSlashes cs with
  | [] => if isRooted cs then ['/'] else here
  | trimmed =>
    match beforeLastSlash? trimmed with
    | some [] => ['/']
    | some parent => parent
    | none => here

/-- The directory part of a path: `.` when it has none. -/
def directory (path : String) : String :=
  String.ofList (directoryChars path.toList)

/-- The characters of a path that is read from a directory. -/
def joinChars (root cs : List Char) : List Char :=
  if isAbsoluteChars cs || isRooted cs then cs
  else normalizeChars (trimSlashes (if root = [] then here else root) ++ '/' :: cs)

/-- Reads a path from a directory: a relative one is put behind the directory and normalized. -/
def join (root path : String) : String :=
  String.ofList (joinChars root.toList path.toList)

/-! ### File paths -/

/-- Turns backslashes into slashes. -/
def slashed (cs : List Char) : List Char :=
  cs.map fun c => if c = '\\' then '/' else c

/-- The characters of the path form of a file path. -/
def ofFileChars : List Char → List Char
  | drive :: ':' :: rest =>
    if drive.isAlpha then
      match slashed rest with
      | '/' :: more => '/' :: more
      | more => '/' :: more
    else slashed (drive :: ':' :: rest)
  | cs => slashed cs

/-- The path form of a file path: slashes for backslashes, and a root for a drive letter. -/
def ofFile (path : String) : String :=
  String.ofList (ofFileChars path.toList)

example : join "a/b" "../c" = "a/c" := by decide
example : directory "a/b/" = "a" := by decide
example : ofFile "C:\\css\\a.css" = "/css/a.css" := by decide

end StylePrint.UrlPath
