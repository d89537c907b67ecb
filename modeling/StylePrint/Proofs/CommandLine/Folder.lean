import StylePrint.Proofs.CommandLine.FileSystem
import StylePrint.Proofs.Lookup
/-!
A working folder as a file system. Its directories are the beginnings of the paths of its files, so
putting a file into one of them makes and removes none (`Folder.isDirectory_put`), and what a folder
reads and writes is what the file system does (`Folder.runOn_fileSystem`).
-/

namespace StylePrint.CommandLine

open StylePrint.SourceMap StylePrint.UrlPath

namespace Folder

theorem isFileName_iff {segment : Segment} :
    isFileName segment = true ↔
      IsName segment ∧ (Text.Utf8.encode segment).length ≤ maxNameLength := by
  simp [isFileName, IsName, and_assoc]

theorem isDirectory_iff {f : Folder} {path : List Segment} :
    f.isDirectory path = true ↔
      path = [] ∨ ∃ file ∈ f.files, path <+: file.1 ∧ path ≠ file.1 := by
  simp [isDirectory, List.isEmpty_iff]

/-- What a directory lies in is a directory. -/
theorem isDirectory_above {f : Folder} {path directory : List Segment}
    (h : f.isDirectory directory = true) (habove : path <+: directory) :
    f.isDirectory path = true := by
  rw [isDirectory_iff] at h ⊢
  rcases h with rfl | ⟨file, hfile, hbelow, hne⟩
  · exact .inl (List.prefix_nil.mp habove)
  · refine .inr ⟨file, hfile, habove.trans hbelow, ?_⟩
    rintro rfl
    exact hne (hbelow.eq_of_length_le habove.length_le)

/-- A folder with a file put at a place. -/
def put (f : Folder) (place : List Segment) (content : String) : Folder :=
  ⟨(place, content) :: f.files.filter fun file => file.1 ≠ place⟩

/-- Putting a file into a directory makes and removes no directory. -/
theorem isDirectory_put {f : Folder} {directory : List Segment} (h : f.isDirectory directory = true)
    (name : Segment) (content : String) (path : List Segment) :
    (f.put (directory ++ [name]) content).isDirectory path = f.isDirectory path := by
  rw [Bool.eq_iff_iff]
  constructor
  · intro hput
    rcases isDirectory_iff.mp hput with rfl | ⟨file, hfile, hbelow, hne⟩
    · exact isDirectory_iff.mpr (.inl rfl)
    · rcases List.mem_cons.mp hfile with rfl | hfile
      · refine isDirectory_above h ?_
        exact (List.prefix_concat_iff.mp hbelow).resolve_left hne
      · exact isDirectory_iff.mpr (.inr ⟨file, (List.mem_filter.mp hfile).1, hbelow, hne⟩)
  · intro hpath
    rcases isDirectory_iff.mp hpath with rfl | ⟨file, hfile, hbelow, hne⟩
    · exact isDirectory_iff.mpr (.inl rfl)
    · refine isDirectory_iff.mpr (.inr ?_)
      by_cases hsame : file.1 = directory ++ [name]
      · exact ⟨_, List.mem_cons_self, hsame ▸ hbelow, hsame ▸ hne⟩
      · exact ⟨file, List.mem_cons_of_mem _ (List.mem_filter.mpr ⟨hfile, by simpa using hsame⟩),
          hbelow, hne⟩

theorem lookup_put_of_ne {f : Folder} {place other : List Segment} (content : String)
    (h : other ≠ place) : (f.put place content).files.lookup other = f.files.lookup other := by
  have hne : (other == place) = false := beq_eq_false_iff_ne.mpr h
  rw [put, List.lookup_cons, hne]
  exact List.lookup_filter_of_ne h

/-- Whether a file of a name can be in a directory. -/
def Holds (f : Folder) (directory : List Segment) (name : Segment) : Prop :=
  isFileName name = true ∧ f.isDirectory (directory ++ [name]) = false

instance (f : Folder) (directory : List Segment) (name : Segment) :
    Decidable (f.Holds directory name) :=
  inferInstanceAs (Decidable (_ ∧ _))

/-- What is answered to a reader for the content that was found. -/
def answer : Option String → Except ReadFault String
  | some content => .ok content
  | none => .error .notFound

theorem read_eq_answer (f : Folder) (path : String) :
    f.read path = answer ((f.locate? path).bind fun place => f.files.lookup place) := rfl

/-- The content of the file of a name in a directory. -/
def file (f : Folder) (directory : List Segment) (name : Segment) : Except ReadFault String :=
  answer (if f.Holds directory name then f.files.lookup (directory ++ [name]) else none)

/-- Puts a file of a name into a directory. -/
def put? (f : Folder) (directory : List Segment) (name : Segment) (content : String) :
    Option Folder :=
  if f.Holds directory name ∧ f.isDirectory directory = true then
    some (f.put (directory ++ [name]) content)
  else none

theorem put?_eq_some {f f' : Folder} {directory : List Segment} {name : Segment}
    {content : String} :
    f.put? directory name content = some f' ↔
      (f.Holds directory name ∧ f.isDirectory directory = true) ∧
        f.put (directory ++ [name]) content = f' := by
  rw [put?]
  split
  · rename_i h
    simp [h]
  · rename_i h
    simp [h]

theorem linkless_enter (f : Folder) : Linkless f.enter where
  empty := by simp [enter]
  here := by simp [enter]
  up := by
    rintro d e g name ⟨hempty, hhere, hup⟩ hname hback
    rw [enter, if_neg (not_or.mpr ⟨hempty, hhere⟩), if_neg hup] at hname
    split at hname
    · obtain rfl := Option.some.inj hname
      rw [enter, if_neg (by decide), if_pos rfl, if_neg (by simp)] at hback
      rw [← Option.some.inj hback, List.dropLast_concat]
    · cases hname

theorem enter_put {f : Folder} {directory : List Segment} (h : f.isDirectory directory = true)
    (name : Segment) (content : String) :
    (f.put (directory ++ [name]) content).enter = f.enter := by
  funext d segment
  simp only [enter, isDirectory_put h]

theorem holds_put {f : Folder} {directory : List Segment} (h : f.isDirectory directory = true)
    (name : Segment) (content : String) (d : List Segment) (other : Segment) :
    (f.put (directory ++ [name]) content).Holds d other ↔ f.Holds d other := by
  rw [Holds, Holds, isDirectory_put h]

/-- The file system that a working folder is, with no root and nothing above the folder. -/
def fileSystem : FileSystem where
  State := Folder
  Directory := List Segment
  start rooted := if rooted then none else some []
  enter := enter
  file := file
  put? := put?
  maxPathLength := maxPathLength
  linkless := linkless_enter
  topped := by
    rintro f root ⟨⟩
  isName_of_put := by
    intro f f' directory name content h
    obtain ⟨⟨⟨hname, -⟩, -⟩, -⟩ := put?_eq_some.mp h
    exact (isFileName_iff.mp hname).1
  enter_put := by
    intro f f' directory name content h
    obtain ⟨⟨-, hdirectory⟩, rfl⟩ := put?_eq_some.mp h
    exact enter_put hdirectory name content
  file_put := by
    intro f f' directory name content h
    obtain ⟨⟨hholds, hdirectory⟩, rfl⟩ := put?_eq_some.mp h
    rw [file, if_pos ((holds_put hdirectory name content _ _).mpr hholds), put,
      List.lookup_cons_self, answer]
  file_put_of_ne := by
    intro f f' directory name content d other h hne
    obtain ⟨⟨-, hdirectory⟩, rfl⟩ := put?_eq_some.mp h
    have hplace : d ++ [other] ≠ directory ++ [name] := by
      intro hplace
      obtain ⟨rfl, rfl⟩ := List.append_singleton_inj.mp hplace
      exact hne rfl
    rw [file, file, lookup_put_of_ne content hplace]
    simp only [holds_put hdirectory]

/-! ### The disk of a folder -/

theorem isDirectory_enter {f : Folder} {d e : List Segment} {segment : Segment}
    (hd : f.isDirectory d = true) (h : f.enter d segment = some e) : f.isDirectory e = true := by
  rw [enter] at h
  split at h
  · rwa [← Option.some.inj h]
  · split at h
    · split at h
      · cases h
      · rw [← Option.some.inj h]
        exact isDirectory_above hd (List.dropLast_prefix d)
    · split at h
      · rename_i hbelow
        rwa [← Option.some.inj h]
      · cases h

/-- From a directory segments lead to a directory. -/
theorem isDirectory_walk {f : Folder} {segments : List Segment} {d e : List Segment}
    (hd : f.isDirectory d = true) (h : walk f.enter d segments = some e) :
    f.isDirectory e = true := by
  induction segments generalizing d with
  | nil => rwa [← Option.some.inj h]
  | cons segment rest ih =>
      rw [walk_cons] at h
      obtain ⟨g, henter, h⟩ := Option.bind_eq_some_iff.mp h
      exact ih (isDirectory_enter hd henter) h

/-- Where a path leads in a folder. -/
def place? (f : Folder) (path : String) : Option (List Segment × Segment) :=
  fileSystem.place? f path

variable {f : Folder} {path : String} {d : List Segment} {name : Segment}

/-- In a folder paths begin in the folder, and none is rooted. -/
theorem place?_iff :
    f.place? path = some (d, name) ↔
      (Text.Utf8.encode path.toList).length ≤ maxPathLength ∧ isRooted path.toList = false ∧
        ∃ segments, path.toList.splitOn '/' = segments ++ [name] ∧
          walk f.enter [] segments = some d := by
  refine (@FileSystem.place?_eq_some fileSystem f path d name).trans (and_congr_right fun _ => ?_)
  cases hrooted : isRooted path.toList with
  | true =>
      constructor
      · rintro ⟨segments, e, -, hstart, -⟩
        rw [hrooted] at hstart
        cases hstart
      · rintro ⟨⟨⟩, -⟩
  | false =>
      constructor
      · rintro ⟨segments, e, hsegments, hstart, hwalk⟩
        rw [hrooted] at hstart
        cases hstart
        exact ⟨rfl, segments, hsegments, hwalk⟩
      · rintro ⟨-, segments, hsegments, hwalk⟩
        refine ⟨segments, [], hsegments, ?_, hwalk⟩
        rw [hrooted]
        rfl

theorem isDirectory_place (h : f.place? path = some (d, name)) :
    f.isDirectory d = true := by
  obtain ⟨-, -, segments, -, hwalk⟩ := place?_iff.mp h
  exact isDirectory_walk (isDirectory_iff.mpr (.inl rfl)) hwalk

/-- A path leads to the file of a name in a directory, where there can be one. -/
theorem locate?_eq_some {place : List Segment} :
    f.locate? path = some place ↔
      ∃ d name, f.place? path = some (d, name) ∧ f.Holds d name ∧
        d ++ [name] = place := by
  rcases List.eq_nil_or_concat (path.toList.splitOn '/') with hnil | ⟨front, last, hsegments⟩
  · exact absurd hnil (List.splitOn_ne_nil _ _)
  · rw [List.concat_eq_append] at hsegments
    have hlocate : f.locate? path
        = if isRooted path.toList ∨ ¬ isFileName last
              ∨ maxPathLength < (Text.Utf8.encode path.toList).length then none
          else (walk f.enter [] front).bind fun d =>
            if f.isDirectory (d ++ [last]) then none else some (d ++ [last]) := by
      rw [locate?, hsegments, List.getLast?_concat, List.dropLast_concat]
      rfl
    rw [hlocate]
    constructor
    · intro h
      split at h
      · cases h
      · rename_i hfits
        obtain ⟨hrooted, hname, hlength⟩ := by simpa only [not_or, not_not] using hfits
        obtain ⟨d, hwalk, h⟩ := Option.bind_eq_some_iff.mp h
        split at h
        · cases h
        · rename_i hdirectory
          refine ⟨d, last, place?_iff.mpr ⟨Nat.le_of_not_lt hlength, ?_, front, hsegments, hwalk⟩,
            ⟨hname, Bool.eq_false_iff.mpr hdirectory⟩, Option.some.inj h⟩
          exact Bool.eq_false_iff.mpr hrooted
    · rintro ⟨d, name, hplace, ⟨hname, hdirectory⟩, rfl⟩
      obtain ⟨hlength, hrooted, segments, happend, hwalk⟩ := place?_iff.mp hplace
      rw [hsegments] at happend
      obtain ⟨rfl, rfl⟩ := List.append_singleton_inj.mp happend
      have hfits : ¬ (isRooted path.toList ∨ ¬ isFileName last
          ∨ maxPathLength < (Text.Utf8.encode path.toList).length) := by
        rw [hrooted, hname]
        simpa using hlength
      rw [if_neg hfits, hwalk, Option.bind_some, hdirectory]
      rfl

theorem locate?_of_not_holds (hplace : f.place? path = some (d, name))
    (h : ¬ f.Holds d name) : f.locate? path = none := by
  rw [Option.eq_none_iff_forall_ne_some]
  intro place hlocate
  obtain ⟨e, other, hother, hholds, -⟩ := locate?_eq_some.mp hlocate
  obtain ⟨rfl, rfl⟩ := Prod.mk.inj (Option.some.inj (hplace.symm.trans hother))
  exact h hholds

theorem locate?_of_no_place (hplace : f.place? path = none) :
    f.locate? path = none := by
  rw [Option.eq_none_iff_forall_ne_some]
  intro place hlocate
  obtain ⟨e, other, hother, -, -⟩ := locate?_eq_some.mp hlocate
  cases hplace.symm.trans hother

theorem read_eq (f : Folder) (path : String) : fileSystem.read f path = f.read path := by
  cases hplace : f.place? path with
  | none =>
      rw [read, locate?_of_no_place hplace]
      exact FileSystem.read_of_no_place hplace
  | some place =>
      obtain ⟨d, name⟩ := place
      have hread : fileSystem.read f path = f.file d name := FileSystem.read_of_place hplace
      rw [hread, file, read_eq_answer]
      by_cases hholds : f.Holds d name
      · rw [if_pos hholds, locate?_eq_some.mpr ⟨d, name, hplace, hholds, rfl⟩, Option.bind_some]
      · rw [if_neg hholds, locate?_of_not_holds hplace hholds, Option.bind_none]

theorem write?_eq (f : Folder) (path content : String) :
    fileSystem.write? f path content = f.write? path content := by
  cases hplace : f.place? path with
  | none =>
      rw [write?, locate?_of_no_place hplace]
      exact FileSystem.write?_of_no_place hplace content
  | some place =>
      obtain ⟨d, name⟩ := place
      have hdirectory := isDirectory_place hplace
      have hwrite : fileSystem.write? f path content = f.put? d name content :=
        FileSystem.write?_of_place hplace content
      rw [hwrite, put?, write?]
      by_cases hholds : f.Holds d name
      · rw [if_pos ⟨hholds, hdirectory⟩, locate?_eq_some.mpr ⟨d, name, hplace, hholds, rfl⟩]
        rfl
      · rw [if_neg fun h => hholds h.1, locate?_of_not_holds hplace hholds]
        rfl

theorem fileSystem_read : fileSystem.read = read := by
  funext f path
  exact read_eq f path

theorem fileSystem_write? : fileSystem.write? = write? := by
  funext f path content
  exact write?_eq f path content

/-- **A run in a folder is one on the file system that the folder is.** -/
theorem runOn_fileSystem {α : Type} (input : Option String) (folder : Folder) (x : Act α) :
    x.runOn fileSystem.disk input folder = x.run input folder := by
  rw [← Act.runOn_folder]
  show Act.runOn ⟨Folder, fileSystem.read, fileSystem.write?⟩ input folder x = _
  rw [fileSystem_read, fileSystem_write?]
  rfl

end Folder

end StylePrint.CommandLine
