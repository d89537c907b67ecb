import StylePrint.Proofs.Outcome
import StylePrint.Proofs.CommandLine.Disk
import StylePrint.Proofs.SourceMap.Linked
import StylePrint.Proofs.Session.Tracking
/-!
The map inside the printed text. The line that links a text to an address is the annotation that a
reader finds, whatever the text holds (`address?_linkLine`), and the address that holds a map leads
to it (`load_inlineAddress`). So what a run without an output file puts onto standard output links
to the map that was printed (`inlined_map_is_read_back`).
-/

namespace StylePrint.CommandLine

open StylePrint.SourceMap

/-! ### The line that links a text to a map -/

theorem toList_opening : "\n/*# sourceMappingURL=".toList = '\n' :: '/' :: LinkComment.fence := by
  decide

/-- The line is a block annotation with its mark at once. -/
theorem toList_linkLine (code address : String) :
    (code ++ linkLine address ++ "\n").toList
      = (code.toList ++ ['\n'])
        ++ '/' :: (LinkComment.fence ++ (address.toList ++ ' ' :: '*' :: '/' :: ['\n'])) := by
  unfold linkLine
  simp only [String.toList_append, toList_opening]
  simp

theorem linkLine_eq (code address : String) :
    code ++ linkLine address ++ "\n"
      = code ++ "\n" ++ ("/*# sourceMappingURL=" ++ address ++ " */") ++ "\n" := by
  have hopen : "\n/*# sourceMappingURL=" = "\n" ++ "/*# sourceMappingURL=" := by decide
  unfold linkLine
  simp only [hopen, String.append_assoc]

/-- **The line is found behind every text**, when its address has no character that ends one. -/
theorem address?_linkLine {address : String}
    (h : ∀ c ∈ address.toList, LinkComment.isAddressChar c = true) (code : String) :
    LinkComment.address? (code ++ linkLine address ++ "\n") = some address := by
  rw [LinkComment.address?, toList_linkLine, LinkComment.find?_block _ h rfl, Option.map_some,
    String.ofList_toList]

/-! ### The address that holds a map -/

/-- The header of the address. -/
def inlineHeader : DataHeader where
  mediaType := "application/json".toList
  parameters := ["base64".toList]
  isMapType := rfl
  isParameter := by decide

theorem inlineAddress_eq (m : RawMap) :
    inlineAddress m
      = String.ofList (inlineHeader.address (Text.Base64.encode (Text.Utf8.encode m.text.toList))) := by
  have hscheme : "data:application/json;base64,".toList
      = "data:".toList ++ (inlineHeader.chars ++ [',']) := by decide
  apply String.toList_injective
  unfold inlineAddress DataHeader.address
  simp only [String.toList_append, String.toList_ofList, hscheme, List.append_assoc,
    List.singleton_append]

/-- Nothing in the address ends it. -/
theorem isAddressChar_inlineAddress (m : RawMap) :
    ∀ c ∈ (inlineAddress m).toList, LinkComment.isAddressChar c = true := by
  rw [inlineAddress_eq, String.toList_ofList]
  exact inlineHeader.isAddressChar_address (isAddressChar_encode _)

/-- The address leads to the map that it was made of. -/
theorem load_inlineAddress (m : RawMap) (path : String) :
    load (inlineAddress m) path = pure ⟨m, inlineAddress m, path⟩ := by
  rw [inlineAddress_eq]
  exact inlineHeader.load_address (DataUri.payload_encode _) path

/-! ### Runs without an output file -/

/-- Where a map is asked for, a tree is printed with one. -/
theorem exists_map {options : Options} {tree : Json} {printed : Printed} {reader : Reader}
    (hmap : options.wantsMap = true)
    (h : (stringifyJson options tree).value reader = .ok printed) :
    ∃ map, printed.map = some map := by
  rw [stringifyJson.eq_def] at h
  split at h
  · cases h
  · split at h
    · cases h
    · rw [value_stringify_of_wantsMap hmap] at h
      obtain ⟨draft, -, rfl⟩ := Except.map_eq_ok.mp h
      exact ⟨_, rfl⟩

/-- **What is put inside the printed text is read back.** A run without an output file that ends
with status zero prints a tree under options; where these ask for a map, standard output holds the
text and, on the next line, the annotation with the map, and whatever the text holds, comments and
annotations included, a reader finds this annotation and gets the map from it, for any path that the
text may stand at and without reading a file. -/
theorem inlined_map_is_read_back {disk : Disk} {input : Option String} {args : List String}
    {a : Arguments} {s s' : disk.State} {outcome : Outcome}
    (hargs : Invocation.ofWords args = .run a) (houtput : a.output = none)
    (hrun : (program args).runOn disk input s = (outcome, s')) (hstatus : outcome.status = 0) :
    ∃ options tree printed, Prints disk input s a options tree printed ∧
      (options.wantsMap = true → ∃ map, printed.map = some map ∧
        outcome.stdout = printed.code ++ "\n"
          ++ ("/*# sourceMappingURL=" ++ inlineAddress map.toRaw ++ " */") ++ "\n" ∧
        LinkComment.address? outcome.stdout = some (inlineAddress map.toRaw) ∧
        ∀ (path : String) (reader : Reader),
          (linkedMap? outcome.stdout path).run.run reader
            = (.ok (some ⟨map.toRaw, inlineAddress map.toRaw, path⟩), [])) := by
  obtain ⟨options, tree, printed, hprints, hput⟩ := execute_ok (program_ok hargs hrun hstatus)
  refine ⟨options, tree, printed, hprints, ?_⟩
  intro hmap
  obtain ⟨map, hprinted⟩ := exists_map hmap hprints.prints
  have hstdout : outcome.stdout = printed.code ++ linkLine (inlineAddress map.toRaw) ++ "\n" := by
    rw [houtput, putOut, hprinted] at hput
    exact (pure_ok.mp hput).1.symm
  have haddress : LinkComment.address? outcome.stdout = some (inlineAddress map.toRaw) := by
    rw [hstdout]
    exact address?_linkLine (isAddressChar_inlineAddress map.toRaw) printed.code
  refine ⟨map, hprinted, ?_, haddress, ?_⟩
  · rw [hstdout]
    exact linkLine_eq printed.code _
  · intro path reader
    refine run_linkedMap? haddress ?_
    rw [load_inlineAddress]
    rfl

/-- The tree is a comment that looks like an annotation, so the text holds two of them. -/
theorem inlined_map_is_read_back_of_forged :
    let tree := "\x7b\"type\":\"comment\",\"comment\":\"# sourceMappingURL=a.map \"\x7d"
    let outcome := ((program ["--sourcemap"]).run (some tree) ⟨[]⟩).1
    outcome.status = 0 ∧ ∃ map : RawMap,
      LinkComment.address? outcome.stdout = some (inlineAddress map) ∧
      ∀ (path : String) (reader : Reader), (linkedMap? outcome.stdout path).run.run reader
        = (.ok (some ⟨map, inlineAddress map, path⟩), []) := by
  intro tree outcome
  have hargs : Invocation.ofWords ["--sourcemap"] = .run { sourcemap := true } := rfl
  have hrun : (program ["--sourcemap"]).runOn Folder.disk (some tree) ⟨[]⟩
      = (outcome, ((program ["--sourcemap"]).run (some tree) ⟨[]⟩).2) := Act.runOn_folder _ _ _
  have hstatus : outcome.status = 0 := by decide +kernel
  obtain ⟨options, _, _, hprints, hmap⟩ := inlined_map_is_read_back hargs rfl hrun hstatus
  have hwants : options.wantsMap = true := by
    obtain ⟨rfl, -⟩ := pure_ok.mp hprints.loads
    rfl
  obtain ⟨map, -, -, haddress, hlinked⟩ := hmap hwants
  exact ⟨hstatus, map.toRaw, haddress, hlinked⟩

end StylePrint.CommandLine
