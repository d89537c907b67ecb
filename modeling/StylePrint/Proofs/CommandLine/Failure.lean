import StylePrint.Proofs.CommandLine.Folder
/-!
What a failed run leaves behind. Everything before the output only reads, so a run that fails there
has changed no file (`execute_eq`). The map is written before the text that links to it: when the
map's file can be written and the output cannot, the run fails with the map in place, and with every
other file as it was (`Stranded`). This is the one way in which a failed run changes a file
(`failed_run_changes_at_most_map`).

All of this is said of files whose failed writes change nothing (`Disk`), and of a standard output
that accepts every text (`putOut`).
-/

namespace StylePrint.CommandLine

open StylePrint.SourceMap StylePrint.UrlPath

/-! ### Outputs that fail -/

section Output

variable {disk : Disk} {input : Option String} {s s' : disk.State} {failure : Failure}

/-- A file that cannot be written fails the step and leaves the disk as it is. -/
theorem writeFile_error {path content : String} :
    (writeFile path content).run.runOn disk input s = (.error failure, s') ↔
      disk.write? s path content = none ∧ failure = .write path ∧ s = s' := by
  cases hwrite : disk.write? s path content with
  | some t =>
      have hwrites : (writeFile path content).run.runOn disk input s = (.ok (), t) :=
        writeFile_ok.mpr hwrite
      rw [hwrites]
      constructor
      · exact nofun
      · rintro ⟨⟨⟩, -⟩
  | none =>
      have hfails : (writeFile path content).run.runOn disk input s = (.error (.write path), s) :=
        Act.runOn_write_none disk input hwrite
      rw [hfails]
      constructor
      · rintro ⟨⟩
        exact ⟨rfl, rfl, rfl⟩
      · rintro ⟨-, rfl, rfl⟩
        rfl

/-- Putting a tree out fails without a change, or behind its map, which is in place then. -/
theorem putOut_error {printed : Printed} {output : Option String}
    (h : (putOut printed output).run.runOn disk input s = (.error failure, s')) :
    s' = s ∨ ∃ path map, output = some path ∧ printed.map = some map ∧ failure = .write path ∧
      disk.write? s (path ++ ".map") map.toRaw.text = some s' ∧
      disk.write? s' path (printed.code ++ linkLine (fileName (path ++ ".map")) ++ "\n")
        = none := by
  cases output with
  | none => cases h
  | some path =>
      -- what follows the output's file cannot fail
      have last {css : String} {t : disk.State}
          (h : (writeFile path css >>= fun _ => pure "" : Step String).run.runOn disk input t
            = (.error failure, s')) :
          disk.write? t path css = none ∧ failure = .write path ∧ t = s' := by
        rcases bind_eq.mp h with ⟨_, hfails, ⟨⟩⟩ | ⟨_, _, -, ⟨⟩⟩
        exact writeFile_error.mp hfails
      rw [putOut] at h
      cases hmap : printed.map with
      | none =>
          rw [hmap] at h
          exact .inl (last h).2.2.symm
      | some map =>
          rw [hmap] at h
          rcases bind_eq.mp h with ⟨_, hfails, ⟨⟩⟩ | ⟨_, t, hmapFile, h⟩
          · exact .inl (writeFile_error.mp hfails).2.2.symm
          · obtain ⟨hnone, hfailure, rfl⟩ := last h
            exact .inr ⟨path, map, rfl, rfl, hfailure, writeFile_ok.mp hmapFile, hnone⟩

/-- A run of the program with another status than zero refuses its words, or fails. -/
theorem program_error {args : List String} {outcome : Outcome}
    (hrun : (program args).runOn disk input s = (outcome, s')) (hstatus : outcome.status ≠ 0) :
    s' = s ∨ ∃ a failure, Invocation.ofWords args = .run a ∧
      outcome = ⟨1, "", some failure⟩ ∧
      (execute a).run.runOn disk input s = (.error failure, s') := by
  rw [program] at hrun
  split at hrun
  · obtain ⟨rfl, -⟩ := Prod.mk.inj hrun
    exact absurd rfl hstatus
  · obtain ⟨rfl, -⟩ := Prod.mk.inj hrun
    exact absurd rfl hstatus
  · exact .inl (Prod.mk.inj hrun).2.symm
  · rename_i a hargs
    rw [Act.runOn_bind] at hrun
    rcases hexecute : (execute a).run.runOn disk input s with ⟨failure | stdout, t⟩
    · rw [hexecute] at hrun
      obtain ⟨rfl, rfl⟩ := Prod.mk.inj hrun
      exact .inr ⟨a, failure, hargs, rfl, hexecute⟩
    · rw [hexecute] at hrun
      obtain ⟨rfl, -⟩ := Prod.mk.inj hrun
      exact absurd rfl hstatus

end Output

/-! ### Files behind a failure -/

/-- What files hold when a map was written and the output beside it could not be: the map, and
everything that they held before. -/
structure Stranded (fs : FileSystem) (s s' : fs.State) (path css text : String)
    (d : fs.Directory) (name : Segment) : Prop where
  map : fs.place? s (path ++ ".map") = some (d, name)
  text : fs.file s' d name = .ok text
  others : ∀ e other, (e, other) ≠ (d, name) → fs.file s' e other = fs.file s e other
  directories : fs.enter s' = fs.enter s
  output : fs.write? s' path css = none

section Reading

variable {fs : FileSystem} {s s' : fs.State} {path css text : String} {d : fs.Directory}
  {name : Segment} (h : Stranded fs s s' path css text d name)

include h

theorem Stranded.place?_eq (other : String) : fs.place? s' other = fs.place? s other := by
  rw [FileSystem.place?, FileSystem.place?, h.directories]

/-- The map is read from its path. -/
theorem Stranded.read_map : fs.read s' (path ++ ".map") = .ok text := by
  rw [FileSystem.read_of_place ((h.place?_eq _).trans h.map), h.text]

/-- A path that does not lead to the map reads as before. -/
theorem Stranded.read_of_ne {other : String} (hother : fs.place? s other ≠ some (d, name)) :
    fs.read s' other = fs.read s other := by
  rw [FileSystem.read, FileSystem.read, h.place?_eq]
  split
  · rename_i e own hplace
    refine h.others e own ?_
    rintro ⟨⟩
    exact hother hplace
  · rfl

end Reading

/-- **A failed run changes no file but the map of an output that cannot be written.** A run that
ends with another status than zero leaves all files as they were, save in one case: a map was asked
for beside an output file, the map was written, and then the output could not be. Then the file of
the map holds the map, every other file is as it was, and the failure names the output. The file of
the output is one of the others, since a write that fails is taken to leave its own file alone. -/
theorem failed_run_changes_at_most_map {fs : FileSystem} {input : Option String}
    {args : List String} {s s' : fs.State} {outcome : Outcome}
    (hrun : (program args).runOn fs.disk input s = (outcome, s')) (hstatus : outcome.status ≠ 0) :
    s' = s ∨ ∃ a options tree printed map path d name, Invocation.ofWords args = .run a ∧
      a.output = some path ∧ Prints fs.disk input s a options tree printed ∧
      printed.map = some map ∧ outcome = ⟨1, "", some (.write path)⟩ ∧
      Stranded fs s s' path (printed.code ++ linkLine (fileName (path ++ ".map")) ++ "\n")
        map.toRaw.text d name := by
  rcases program_error hrun hstatus with hsame | ⟨a, failure, hargs, houtcome, hfails⟩
  · exact .inl hsame
  rcases execute_eq hfails with ⟨-, hsame⟩ | ⟨options, tree, printed, hprints, hfails⟩
  · exact .inl hsame.symm
  rcases putOut_error hfails with hsame | ⟨path, map, houtput, hmap, rfl, hwrite, hnone⟩
  · exact .inl hsame
  obtain ⟨d, name, hplace, hput⟩ := FileSystem.write?_eq_some.mp hwrite
  exact .inr ⟨a, options, tree, printed, map, path, d, name, hargs, houtput, hprints, hmap,
    houtcome, hplace, fs.file_put hput, fun e other hne => fs.file_put_of_ne hput hne,
    fs.enter_put hput, hnone⟩

/-- The output is the name of a directory: an older map beside it is replaced, and the file in the
directory stays. -/
theorem failed_run_changes_at_most_map_of_directory :
    let tree := "\x7b\"type\":\"comment\",\"comment\":\"a\"\x7d"
    let folder := Folder.ofList [("site/a.css", "b"), ("site.map", "c")]
    let run := (program ["--sourcemap", "-o", "site"]).run (some tree) folder
    run.1 = ⟨1, "", some (.write "site")⟩ ∧
      (∃ map : RawMap, run.2.read "site.map" = .ok map.text) ∧
      run.2.read "site/a.css" = .ok "b" := by
  intro tree folder run
  have hargs : Invocation.ofWords ["--sourcemap", "-o", "site"]
      = .run { sourcemap := true, output := some "site" } := by decide +kernel
  have hrun : (program ["--sourcemap", "-o", "site"]).runOn Folder.fileSystem.disk (some tree)
      folder = (run.1, run.2) := Folder.runOn_fileSystem _ _ _
  have hstatus : run.1.status ≠ 0 := by decide +kernel
  have hchanged : run.2 ≠ folder := by decide +kernel
  obtain ⟨a, _, _, printed, map, path, d, name, hwords, houtput, -, -, houtcome, hstranded⟩ :=
    (failed_run_changes_at_most_map hrun hstatus).resolve_left hchanged
  obtain rfl := Invocation.run.inj (hargs.symm.trans hwords)
  obtain rfl := Option.some.inj houtput
  have hmap := hstranded.read_map
  have hfile : Folder.fileSystem.place? folder "site/a.css" ≠ some (d, name) := by
    have hplaces : folder.place? "site/a.css" ≠ folder.place? ("site" ++ ".map") := by
      decide +kernel
    intro hplace
    exact hplaces (hplace.trans hstranded.map.symm)
  have hkept := hstranded.read_of_ne hfile
  rw [Folder.fileSystem_read] at hmap hkept
  exact ⟨houtcome, ⟨map.toRaw, hmap⟩, hkept.trans (by decide +kernel)⟩

/-- The output is the working folder itself: the run fails, and the map is in the folder. -/
theorem failed_run_leaves_map :
    let tree := "\x7b\"type\":\"comment\",\"comment\":\"a\"\x7d"
    let run := (program ["--sourcemap", "-o", "."]).run (some tree) ⟨[]⟩
    let map : RawMap := ⟨3, [], [], "", none, none, none⟩
    run = (⟨1, "", some (.write ".")⟩, Folder.ofList [("..map", map.text)]) := by
  decide +kernel

end StylePrint.CommandLine
