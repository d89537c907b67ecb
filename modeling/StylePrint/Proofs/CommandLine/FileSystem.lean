import Mathlib.Data.List.Flatten
import StylePrint.Proofs.CommandLine.Disk
import StylePrint.Proofs.UrlPath.Beside
/-!
Files in directories. A `FileSystem` has directories that paths lead into segment by segment, with
no links among them, and files under names in them, so it is a disk. Putting a file somewhere does
not change where paths lead (`FileSystem.place?_put`), and a name beside a file is found from the
directory of the file's path (`FileSystem.place?_join`).
-/

namespace StylePrint.CommandLine

open StylePrint.SourceMap StylePrint.UrlPath

/-- Directories with files in them. Paths begin in the working directory, or at the root when they
are rooted; each of their segments but the last leads from a directory to a directory, and the last
one is the name of a file. No link leads from one file to another, and a file that cannot be put
somewhere leaves what was there, as on every `Disk`. -/
structure FileSystem where
  State : Type
  Directory : Type
  /-- Where paths begin, rooted ones and others. -/
  start : Bool → Option Directory
  /-- The directory that a segment leads to. -/
  enter : State → Directory → Segment → Option Directory
  /-- The content of the file of a name. -/
  file : State → Directory → Segment → Except ReadFault String
  /-- Puts a file under a name; `none` when it cannot be opened there. -/
  put? : State → Directory → Segment → String → Option State
  /-- The greatest number of bytes in a path. -/
  maxPathLength : Nat
  linkless : ∀ s, Linkless (enter s)
  topped : ∀ s, Topped (enter s) start
  isName_of_put : ∀ {s s' d name content}, put? s d name content = some s' → IsName name
  /-- Putting a file somewhere makes and removes no directory. -/
  enter_put : ∀ {s s' d name content}, put? s d name content = some s' → enter s' = enter s
  file_put : ∀ {s s' d name content}, put? s d name content = some s' →
    file s' d name = .ok content
  file_put_of_ne : ∀ {s s' d name content e other}, put? s d name content = some s' →
    (e, other) ≠ (d, name) → file s' e other = file s e other

namespace FileSystem

variable (fs : FileSystem)

/-- Where a path leads, if it is not too long: a name in a directory. -/
def place? (s : fs.State) (path : String) : Option (fs.Directory × Segment) := do
  let cs := path.toList
  let segments := cs.splitOn '/'
  let name ← segments.getLast?
  if fs.maxPathLength < (Text.Utf8.encode cs).length then none
  else
    let e ← fs.start (isRooted cs)
    let d ← walk (fs.enter s) e segments.dropLast
    return (d, name)

/-- Reads the file at a path. -/
def read (s : fs.State) (path : String) : Except ReadFault String :=
  match fs.place? s path with
  | some (d, name) => fs.file s d name
  | none => .error .notFound

/-- Puts a file at a path. -/
def write? (s : fs.State) (path content : String) : Option fs.State :=
  (fs.place? s path).bind fun place => fs.put? s place.1 place.2 content

/-- The disk that a file system is. -/
def disk : Disk := ⟨fs.State, fs.read, fs.write?⟩

section Places

variable {fs} {s s' : fs.State} {path content : String} {d : fs.Directory} {name : Segment}

/-- A path leads to a name in a directory when it is not too long and reaches it. -/
theorem place?_eq_some :
    fs.place? s path = some (d, name) ↔
      (Text.Utf8.encode path.toList).length ≤ fs.maxPathLength ∧
        Reaches (fs.enter s) fs.start path.toList d name := by
  rcases List.eq_nil_or_concat (path.toList.splitOn '/') with hnil | ⟨front, last, hsegments⟩
  · exact absurd hnil (List.splitOn_ne_nil _ _)
  · rw [List.concat_eq_append] at hsegments
    have hplace : fs.place? s path
        = if fs.maxPathLength < (Text.Utf8.encode path.toList).length then none
          else (fs.start (isRooted path.toList)).bind fun e =>
            (walk (fs.enter s) e front).bind fun d => some (d, last) := by
      rw [place?, hsegments, List.getLast?_concat, List.dropLast_concat]
      rfl
    rw [hplace, Reaches, hsegments]
    constructor
    · intro h
      split at h
      · cases h
      · rename_i hlength
        obtain ⟨e, hstart, h⟩ := Option.bind_eq_some_iff.mp h
        obtain ⟨d, hwalk, ⟨⟩⟩ := Option.bind_eq_some_iff.mp h
        exact ⟨Nat.le_of_not_lt hlength, front, e, rfl, hstart, hwalk⟩
    · rintro ⟨hlength, segments, e, happend, hstart, hwalk⟩
      obtain ⟨rfl, rfl⟩ := List.append_singleton_inj.mp happend
      rw [if_neg (Nat.not_lt_of_le hlength), hstart, Option.bind_some, hwalk, Option.bind_some]

theorem read_of_place (h : fs.place? s path = some (d, name)) :
    fs.read s path = fs.file s d name := by
  rw [read, h]

theorem read_of_no_place (h : fs.place? s path = none) : fs.read s path = .error .notFound := by
  rw [read, h]

theorem write?_of_place (h : fs.place? s path = some (d, name)) (content : String) :
    fs.write? s path content = fs.put? s d name content := by
  rw [write?, h, Option.bind_some]

theorem write?_of_no_place (h : fs.place? s path = none) (content : String) :
    fs.write? s path content = none := by
  rw [write?, h, Option.bind_none]

theorem write?_eq_some :
    fs.write? s path content = some s' ↔
      ∃ d name, fs.place? s path = some (d, name) ∧ fs.put? s d name content = some s' := by
  rw [write?, Option.bind_eq_some_iff]
  constructor
  · rintro ⟨⟨d, name⟩, hplace, hput⟩
    exact ⟨d, name, hplace, hput⟩
  · rintro ⟨d, name, hplace, hput⟩
    exact ⟨(d, name), hplace, hput⟩

/-- Paths lead where they led before a file was put somewhere. -/
theorem place?_put (h : fs.put? s d name content = some s') (path : String) :
    fs.place? s' path = fs.place? s path := by
  rw [place?, place?, fs.enter_put h]

/-! ### Names beside a file -/

/-- A path with a suffix leads to the name with the suffix, when it leads anywhere. -/
theorem place?_append {suffix : String} {place : fs.Directory × Segment}
    (hplace : fs.place? s path = some (d, name)) (hname : name ≠ []) (hsuffix : '/' ∉ suffix.toList)
    (h : fs.place? s (path ++ suffix) = some place) : place = (d, name ++ suffix.toList) := by
  obtain ⟨e, other⟩ := place
  obtain ⟨hlength, hother⟩ := place?_eq_some.mp h
  have hreaches := (place?_eq_some.mp hplace).2.append hname hsuffix
  rw [← String.toList_append] at hreaches
  have hsame := place?_eq_some.mpr ⟨hlength, hreaches⟩
  rw [h] at hsame
  exact Option.some.inj hsame

/-- A name with a suffix is found from the directory of the path, where the path with the suffix
leads. -/
theorem place?_join {suffix : String} {place : fs.Directory × Segment}
    (hplace : fs.place? s path = some (d, name)) (hname : name ≠ [])
    (hsuffix : '/' ∉ suffix.toList) (hbeside : IsName (name ++ suffix.toList))
    (hdata : isData (name ++ suffix.toList) = false)
    (h : fs.place? s (path ++ suffix) = some place) :
    fs.place? s (join (directory path) (String.ofList (name ++ suffix.toList))) = some place := by
  obtain ⟨-, hreaches⟩ := place?_eq_some.mp hplace
  obtain ⟨segments, -, hsegments, -⟩ := id hreaches
  have hslash : '/' ∉ name ++ suffix.toList := by
    simp [slash_not_mem_last hsegments, hsuffix]
  have hsublist := sublist_joinChars hsegments hname hbeside hsuffix hdata
  have hlength : (Text.Utf8.encode (joinChars (directoryChars path.toList)
      (name ++ suffix.toList))).length ≤ fs.maxPathLength := by
    have hbound := (place?_eq_some.mp h).1
    rw [String.toList_append] at hbound
    exact Nat.le_trans (hsublist.flatMap Text.Utf8.encodeChar).length_le hbound
  obtain rfl := place?_append hplace hname hsuffix h
  refine place?_eq_some.mpr ?_
  rw [join, directory, String.toList_ofList, String.toList_ofList, String.toList_ofList]
  exact ⟨hlength, hreaches.join hslash hdata hname hbeside (fs.linkless s) (fs.topped s)⟩

end Places

end FileSystem

end StylePrint.CommandLine
