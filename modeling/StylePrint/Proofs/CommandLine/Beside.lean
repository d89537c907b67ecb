import StylePrint.Proofs.CommandLine.Folder
import StylePrint.Proofs.CommandLine.Inline
import StylePrint.Proofs.SourceMap.Needed
/-!
The map beside the output file. The annotation in the output holds the bare name of the map file, so
a reader finds the map from the output's path when the name can stand as an address
(`IsAddress`); then the address leads to the file that was written, wherever the output lies.
Another name hides the map: an address that white space or a quote ends is no annotation, and what
begins like a data address is not read from a file (`map_beside_output_is_found`,
`space_hides_map`).
-/

namespace StylePrint.CommandLine

open StylePrint.SourceMap StylePrint.UrlPath

/-! ### Names as addresses -/

/-- Whether a file name can stand as an address: no character in it ends an address, and it does not
begin like a data address. -/
def IsAddress (name : String) : Prop :=
  (∀ c ∈ name.toList, LinkComment.isAddressChar c = true) ∧ isData name.toList = false

/-- The suffix of a map file does not tell whether a name begins like a data address. -/
theorem isData_append (name : List Char) : isData (name ++ ".map".toList) = isData name := by
  rcases name with _ | ⟨a, _ | ⟨b, _ | ⟨c, _ | ⟨d, _ | ⟨e, rest⟩⟩⟩⟩⟩ <;>
    simp [isData, List.isPrefixOf]

/-- A name with the suffix of map files is a name. -/
theorem isName_append (name : List Char) : IsName (name ++ ".map".toList) := by
  have hlength : 4 ≤ (name ++ ".map".toList).length := by simp
  have hne : ∀ segment : Segment, segment.length < 4 → name ++ ".map".toList ≠ segment := by
    intro segment hshort h
    rw [h] at hlength
    exact Nat.not_le_of_lt hshort hlength
  exact ⟨hne [] (by decide), hne here (by decide), hne up (by decide)⟩

/-- A name that holds a character that ends an address is found behind no text. -/
theorem address?_hidden {name : String} {c : Char} (hslash : '/' ∉ name.toList)
    (hc : c ∈ name.toList) (hends : LinkComment.isAddressChar c = false) (code : String) :
    LinkComment.address? (code ++ linkLine (name ++ ".map") ++ "\n") = none := by
  have hdrop : 'm' ∈ (name ++ ".map").toList.dropWhile LinkComment.isAddressChar := by
    have hstop : ¬ (name.toList.dropWhile LinkComment.isAddressChar).isEmpty = true := by
      intro hempty
      have hall := List.dropWhile_eq_nil_iff.mp (List.isEmpty_iff.mp hempty) c hc
      exact Bool.noConfusion (hends.symm.trans hall)
    rw [String.toList_append, List.dropWhile_append, if_neg hstop]
    exact List.mem_append_right _ (by decide)
  have hname : '/' ∉ (name ++ ".map").toList := by
    rw [String.toList_append]
    exact List.not_mem_append hslash (by decide)
  rw [LinkComment.address?, toList_linkLine,
    LinkComment.find?_broken _ hname hdrop (by decide) (by decide) rfl]
  rfl

/-! ### Files that are written -/

section Output

variable {disk : Disk} {input : Option String} {s s' : disk.State} {path stdout : String}
  {printed : Printed} {map : FinishedMap}

/-- A printed tree with a map is put out as the map's file and then the output file. -/
theorem putOut_ok (hmap : printed.map = some map)
    (h : (putOut printed (some path)).run.runOn disk input s = (.ok stdout, s')) :
    ∃ t, disk.write? s (path ++ ".map") map.toRaw.text = some t ∧
      disk.write? t path (printed.code ++ linkLine (fileName (path ++ ".map")) ++ "\n")
        = some s' := by
  rw [putOut, hmap] at h
  obtain ⟨_, t, hmapFile, h⟩ := bind_ok.mp h
  obtain ⟨link, u, hlink, h⟩ := bind_ok.mp h
  obtain ⟨rfl, rfl⟩ := pure_ok.mp hlink
  obtain ⟨_, u, houtput, h⟩ := bind_ok.mp h
  obtain ⟨-, rfl⟩ := pure_ok.mp h
  exact ⟨t, writeFile_ok.mp hmapFile, writeFile_ok.mp houtput⟩

end Output

/-- What the files hold after a run has put a map beside its output: both lie in one directory, the
map under the name of the output with the suffix of maps. -/
structure Written (fs : FileSystem) (s : fs.State) (path css text : String) (d : fs.Directory)
    (name : Segment) : Prop where
  isName : IsName name
  output : fs.place? s path = some (d, name)
  map : fs.place? s (path ++ ".map") = some (d, name ++ ".map".toList)
  css : fs.file s d name = .ok css
  text : fs.file s d (name ++ ".map".toList) = .ok text

section Files

variable {fs : FileSystem} {s t s' : fs.State} {path css text : String} {d : fs.Directory}
  {name : Segment}

/-- A map file and then an output file that are written stay as they were written. -/
theorem written_of_write? (hmap : fs.write? s (path ++ ".map") text = some t)
    (houtput : fs.write? t path css = some s') :
    ∃ d name, Written fs s' path css text d name := by
  obtain ⟨e, other, hmapPlace, hmapPut⟩ := FileSystem.write?_eq_some.mp hmap
  obtain ⟨d, name, houtputPlace, houtputPut⟩ := FileSystem.write?_eq_some.mp houtput
  have hname := fs.isName_of_put houtputPut
  rw [FileSystem.place?_put hmapPut] at houtputPlace
  obtain ⟨rfl, rfl⟩ := Prod.mk.inj
    (FileSystem.place?_append houtputPlace hname.1 (by decide) hmapPlace)
  have hplaces : ∀ path, fs.place? s' path = fs.place? s path := by
    intro path
    rw [FileSystem.place?_put houtputPut, FileSystem.place?_put hmapPut]
  have hne : (e, name ++ ".map".toList) ≠ (e, name) := by
    intro hsame
    have hnames : name ++ ".map".toList = name := congrArg Prod.snd hsame
    simp at hnames
  refine ⟨e, name, hname, ?_, ?_, fs.file_put houtputPut, ?_⟩
  · rw [hplaces, houtputPlace]
  · rw [hplaces, hmapPlace]
  · rw [fs.file_put_of_ne houtputPut hne, fs.file_put hmapPut]

variable (h : Written fs s path css text d name)

include h

theorem Written.fileName_eq : fileName path = String.ofList name := by
  obtain ⟨-, segments, e, hsegments, -⟩ := FileSystem.place?_eq_some.mp h.output
  rw [fileName, hsegments, List.getLast?_concat, Option.getD_some]

theorem Written.fileName_map : fileName (path ++ ".map") = String.ofList name ++ ".map" := by
  obtain ⟨-, segments, e, hsegments, -⟩ := FileSystem.place?_eq_some.mp h.map
  rw [fileName, hsegments, List.getLast?_concat, Option.getD_some, String.ofList_append]
  rfl

theorem Written.slash_not_mem : '/' ∉ name := by
  obtain ⟨-, segments, e, hsegments, -⟩ := FileSystem.place?_eq_some.mp h.output
  exact slash_not_mem_last hsegments

theorem Written.not_isData (haddress : IsAddress (fileName path)) : isData name = false := by
  rw [← String.toList_ofList (l := name), ← h.fileName_eq]
  exact haddress.2

/-- From the directory of the output, the name of the map leads to the map. -/
theorem Written.join_eq (hdata : isData name = false) :
    fs.place? s (join (directory path) (fileName (path ++ ".map")))
      = some (d, name ++ ".map".toList) := by
  have hbeside : isData (name ++ ".map".toList) = false := by rwa [isData_append]
  have hmap : fileName (path ++ ".map") = String.ofList (name ++ ".map".toList) := by
    rw [h.fileName_map, String.ofList_append]
    rfl
  rw [hmap]
  exact FileSystem.place?_join h.output h.isName.1 (by decide) (isName_append name) hbeside h.map

/-- The name of the map is the address of the output's annotation, when no character in it ends an
address. -/
theorem Written.address?_eq {code : String}
    (hcss : css = code ++ linkLine (fileName (path ++ ".map")) ++ "\n")
    (hchars : ∀ c ∈ (fileName path).toList, LinkComment.isAddressChar c = true) :
    LinkComment.address? css = some (fileName (path ++ ".map")) := by
  rw [h.fileName_eq, String.toList_ofList] at hchars
  rw [hcss]
  refine address?_linkLine ?_ code
  intro c hc
  rw [h.fileName_map, String.toList_append, String.toList_ofList] at hc
  rcases List.mem_append.mp hc with hc | hc
  · exact hchars c hc
  · have hsuffix : ".map".toList.all LinkComment.isAddressChar = true := by decide
    exact List.all_eq_true.mp hsuffix c hc

/-- A name that can stand as an address leads from the output to the map. -/
theorem Written.found {code : String} {m : RawMap}
    (hcss : css = code ++ linkLine (fileName (path ++ ".map")) ++ "\n") (htext : text = m.text)
    (haddress : IsAddress (fileName path)) :
    (linkedMap? css path).run.run (fs.read s)
      = (.ok (some ⟨m, fileName (path ++ ".map"),
            join (directory path) (fileName (path ++ ".map"))⟩),
          [join (directory path) (fileName (path ++ ".map"))]) := by
  have hdata := h.not_isData haddress
  have hrelative : isAbsolute (fileName (path ++ ".map")) = false := by
    have hslash : '/' ∉ name ++ ".map".toList := List.not_mem_append h.slash_not_mem (by decide)
    rw [isAbsolute, h.fileName_map, String.toList_append, String.toList_ofList, isAbsoluteChars,
      isData_append, hdata, hasSchemeMark_of_not_mem hslash]
    rfl
  have hread : fs.read s (join (directory path) (fileName (path ++ ".map"))) = .ok text := by
    rw [FileSystem.read_of_place (h.join_eq hdata), h.text]
  exact run_linkedMap? (h.address?_eq hcss haddress.1)
    (load_file hrelative hread (htext ▸ parseGuarded_text m))

/-- A name that cannot stand as an address hides the map: no file is read for it. -/
theorem Written.hidden {code : String}
    (hcss : css = code ++ linkLine (fileName (path ++ ".map")) ++ "\n")
    (haddress : ¬ IsAddress (fileName path)) (reader : Reader) :
    (linkedMap? css path).run.asked reader = [] := by
  have hown : (fileName path).toList = name := by rw [h.fileName_eq, String.toList_ofList]
  rw [asked_linkedMap?, needed?]
  by_cases hchars : ∀ c ∈ (fileName path).toList, LinkComment.isAddressChar c = true
  · have hdata : isData (fileName (path ++ ".map")).toList = true := by
      rw [h.fileName_map, String.toList_append, String.toList_ofList, isData_append, ← hown]
      rw [← Bool.not_eq_false]
      intro hdata
      exact haddress ⟨hchars, hdata⟩
    rw [h.address?_eq hcss hchars, Option.bind_some, neededFor?,
      if_pos (isAbsolute_of_isData hdata)]
    rfl
  · obtain ⟨c, hchars⟩ := not_forall.mp hchars
    obtain ⟨hc, hends⟩ := Classical.not_imp.mp hchars
    have hnone : LinkComment.address? css = none := by
      rw [hcss, h.fileName_map, ← h.fileName_eq]
      exact address?_hidden (hown ▸ h.slash_not_mem) hc (Bool.eq_false_iff.mpr hends) code
    rw [hnone]
    rfl

end Files

/-! ### Runs with an output file -/

/-- **What is written beside an output file is found from it, when the file's name can stand as an
address.** A run with an output file that ends with status zero prints a tree under options; where
these ask for a map, the output and the map are in their files afterwards. If the name of the output
can stand as an address, a reader of the output finds the annotation, reads the file of the map and
no other, and gets the map from it. If it cannot, a reader of the output reads no file. -/
theorem map_beside_output_is_found {fs : FileSystem} {input : Option String} {args : List String}
    {a : Arguments} {s s' : fs.State} {outcome : Outcome} {path : String}
    (hargs : Invocation.ofWords args = .run a) (houtput : a.output = some path)
    (hrun : (program args).runOn fs.disk input s = (outcome, s')) (hstatus : outcome.status = 0) :
    ∃ options tree printed, Prints fs.disk input s a options tree printed ∧
      (options.wantsMap = true → ∃ map css place, printed.map = some map ∧
        css = printed.code ++ linkLine (fileName (path ++ ".map")) ++ "\n" ∧
        fs.read s' path = .ok css ∧
        fs.place? s' (path ++ ".map") = some place ∧
        fs.read s' (path ++ ".map") = .ok map.toRaw.text ∧
        (IsAddress (fileName path) → ∃ mapPath, fs.place? s' mapPath = some place ∧
          (linkedMap? css path).run.run (fs.read s')
            = (.ok (some ⟨map.toRaw, fileName (path ++ ".map"), mapPath⟩), [mapPath])) ∧
        (¬ IsAddress (fileName path) → ∀ reader : Reader,
          (linkedMap? css path).run.asked reader = [])) := by
  obtain ⟨options, tree, printed, hprints, hput⟩ := execute_ok (program_ok hargs hrun hstatus)
  refine ⟨options, tree, printed, hprints, ?_⟩
  intro hmap
  obtain ⟨map, hprinted⟩ := exists_map hmap hprints.prints
  rw [houtput] at hput
  obtain ⟨t, hmapFile, houtputFile⟩ := putOut_ok hprinted hput
  obtain ⟨d, name, hwritten⟩ := written_of_write? hmapFile houtputFile
  refine ⟨map, _, (d, name ++ ".map".toList), hprinted, rfl, ?_, hwritten.map, ?_, ?_, ?_⟩
  · rw [FileSystem.read_of_place hwritten.output, hwritten.css]
  · rw [FileSystem.read_of_place hwritten.map, hwritten.text]
  · intro haddress
    exact ⟨_, hwritten.join_eq (hwritten.not_isData haddress), hwritten.found rfl rfl haddress⟩
  · intro haddress reader
    exact hwritten.hidden rfl haddress reader

/-- The path of the output goes up and down, and its map is read from the path in normal form. -/
theorem map_beside_output_is_found_of_dots :
    let tree := "\x7b\"type\":\"comment\",\"comment\":\"a\"\x7d"
    let path := "./css//../css/site.css"
    let run := (program ["--sourcemap", "-o", path]).run (some tree)
      (Folder.ofList [("css/old.css", "")])
    run.1.status = 0 ∧ ∃ (map : RawMap) (css mapPath : String),
      run.2.read path = .ok css ∧ run.2.read (path ++ ".map") = .ok map.text ∧
      (linkedMap? css path).run.run run.2.read
        = (.ok (some ⟨map, "site.css.map", mapPath⟩), [mapPath]) := by
  intro tree path run
  have hargs : Invocation.ofWords ["--sourcemap", "-o", path]
      = .run { sourcemap := true, output := some path } := by decide +kernel
  have hrun : (program ["--sourcemap", "-o", path]).runOn Folder.fileSystem.disk (some tree)
      (Folder.ofList [("css/old.css", "")]) = (run.1, run.2) := Folder.runOn_fileSystem _ _ _
  have hstatus : run.1.status = 0 := by decide +kernel
  obtain ⟨options, _, _, hprints, hmap⟩ := map_beside_output_is_found hargs rfl hrun hstatus
  have hwants : options.wantsMap = true := by
    obtain ⟨rfl, -⟩ := pure_ok.mp hprints.loads
    rfl
  obtain ⟨map, css, place, -, -, hcss, -, htext, hfound, -⟩ := hmap hwants
  have haddress : IsAddress (fileName path) := by
    have hown : fileName path = "site.css" := by decide +kernel
    have hall : "site.css".toList.all LinkComment.isAddressChar = true := by decide
    rw [hown]
    exact ⟨List.all_eq_true.mp hall, by decide⟩
  have hname : fileName (path ++ ".map") = "site.css.map" := by decide +kernel
  obtain ⟨mapPath, -, hlinked⟩ := hfound haddress
  rw [Folder.fileSystem_read] at hcss htext hlinked
  rw [hname] at hlinked
  exact ⟨hstatus, map.toRaw, css, mapPath, hcss, htext, hlinked⟩

/-- The name of the output has a space in it: the output and the map are written, and a reader of
the output finds no annotation. -/
theorem space_hides_map :
    let tree := "\x7b\"type\":\"comment\",\"comment\":\"a\",\"position\":\x7b\"start\":"
      ++ "\x7b\"line\":1,\"column\":1\x7d,\"end\":\x7b\"line\":1,\"column\":6\x7d\x7d\x7d"
    let run := (program ["--sourcemap", "-o", "my site.css"]).run (some tree) ⟨[]⟩
    let css := "/*a*/\n/*# sourceMappingURL=my site.css.map */\n"
    let map : RawMap := ⟨3, ["source.css"], [], "AAAA", none, none, none⟩
    run = (⟨0, "", none⟩, Folder.ofList [("my site.css", css), ("my site.css.map", map.text)]) ∧
      run.2.read "my site.css" = .ok css ∧ run.2.read "my site.css.map" = .ok map.text ∧
      (linkedMap? css "my site.css").run.run run.2.read = (.ok none, []) := by
  intro tree run css map
  have hrun : run = (⟨0, "", none⟩,
      Folder.ofList [("my site.css", css), ("my site.css.map", map.text)]) := by
    decide +kernel
  have hcss : css = "/*a*/" ++ linkLine ("my site.css" ++ ".map") ++ "\n" := by decide +kernel
  have hnone : LinkComment.address? css = none := by
    rw [hcss]
    exact address?_hidden (c := ' ') (by decide) (by decide) (by decide) "/*a*/"
  refine ⟨hrun, ?_, ?_, ?_⟩
  · rw [hrun]
    decide +kernel
  · rw [hrun]
    decide +kernel
  · rw [linkedMap?_of_none hnone]
    rfl

end StylePrint.CommandLine
