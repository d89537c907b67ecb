import StylePrint.Proofs.Printing.Files
import StylePrint.Proofs.Session.Accuracy
import StylePrint.Proofs.Session.Tracking
/-!
The sources of a map and their contents. A map that does not follow the maps of its sources names
the sources of the positions that printing marks, each once, in order of first sight; with each it
gives the content of the first of its positions that comes with any (`sources_of_map`).
-/

namespace StylePrint

open StylePrint.SourceMap StylePrint.Sheet

namespace Tracker

variable {options : Options} {layout : Layout} {unit : String} {node : Node} {t : Tracker}

/-- With the files attached that a new tracker has remembered along a tree, its draft holds for a
source what the positions of the tree tell. -/
theorem contentOf_of_follow
    (h : (start options).follow (Layout.pieces unit 1 (layout.steps node)) = .ok t)
    (source : String) :
    (t.draft.attach t.files).contentOf source = contentIn node.positions source := by
  have hnone : t.draft.contentOf source = none := by
    rw [Draft.contentOf, contents_follow h]
    rfl
  rw [files_of_follow h, Draft.contentOf_attach (nodup_filesIn node.positions), hnone,
    Option.or_none, lookup_filesIn]

end Tracker

/-- A draft that holds for each of its sources what positions tell, and that has the sources of
these positions, is written with contents when one of the positions comes with content. -/
theorem SourceMap.Draft.writtenContents_of_positions {draft : Draft} {positions : List Position}
    (hsources : draft.sources = (positions.map Tracker.sourceOf).eraseDups)
    (hcontents : ∀ source, draft.contentOf source = Tracker.contentIn positions source) :
    draft.writtenContents = if positions.any (·.content.isSome)
      then some (draft.sources.map (Tracker.contentIn positions)) else none := by
  have hmap : draft.sources.map draft.contentOf
      = draft.sources.map (Tracker.contentIn positions) :=
    List.map_congr_left fun source _ => hcontents source
  have hany : (draft.sources.map (Tracker.contentIn positions)).any Option.isSome
      = positions.any (·.content.isSome) := by
    rw [Bool.eq_iff_iff, List.any_map, List.any_eq_true, List.any_eq_true]
    constructor
    · rintro ⟨source, -, hsome⟩
      obtain ⟨position, hposition, -, hcontent⟩ := Tracker.isSome_contentIn_iff.mp hsome
      exact ⟨position, hposition, hcontent⟩
    · rintro ⟨position, hposition, hcontent⟩
      refine ⟨Tracker.sourceOf position, ?_,
        Tracker.isSome_contentIn_iff.mpr ⟨position, hposition, rfl, hcontent⟩⟩
      rw [hsources, List.mem_eraseDups]
      exact List.mem_map_of_mem hposition
  rw [writtenContents, hmap]
  exact congrArg (if · = true then _ else _) hany

/-- **The sources of a map and their contents.** A map is asked for, not to follow the maps of the
sources, and a tree is printed with success. The positions that are marked are the same in every
layout. The map names their sources, in order of first sight and each once, however the paths are
spelled. It comes with contents exactly when a marked position does: for each source the content of
the first marked position in it that comes with any. -/
theorem sources_of_map {options : Options} {node : Node} {code : String}
    (hmap : options.wantsMap = true) (hinput : options.inputSourcemaps = false)
    (hrender : (((Printer.start options).attach (Tracker.start options)).print
      options.layout node).2 = .ok code) (reader : Reader) :
    let marked := (options.layout.steps node).filterMap Layout.Step.position?
    marked = node.positions ∧
      ∃ map, (stringify options (some node)).value reader = .ok ⟨code, some map⟩ ∧
        map.toRaw.sources = (marked.map Tracker.sourceOf).eraseDups ∧
        map.toRaw.sourcesContent = if marked.any (·.content.isSome)
          then some (map.toRaw.sources.map (Tracker.contentIn marked)) else none := by
  intro marked
  have hmarked : marked = node.positions := Layout.positions_steps options.layout node
  obtain ⟨⟨t, hfollow⟩, htext⟩ := Printer.follow_of_outcome hrender
  obtain ⟨contents, hattach⟩ := t.draft.attach_eq t.files
  have hsources : (t.draft.attach t.files).sources
      = (node.positions.map Tracker.sourceOf).eraseDups := by
    rw [hattach]
    exact Tracker.sources_of_follow hfollow
  have hcontents := Draft.writtenContents_of_positions hsources
    (Tracker.contentOf_of_follow hfollow)
  refine ⟨hmarked, Session.mapOf options.sourcemap (t.draft.attach t.files), ?_, ?_, ?_⟩
  · rw [stringify_of_wantsMap hmap, mapped_of_follow hinput hfollow, ← htext]
    rfl
  · rw [toRaw_mapOf, hmarked]
    exact hsources
  · rw [toRaw_mapOf, hmarked]
    exact hcontents

/-- A source in two spellings, which is first marked without content, a position that names no
source, and a rule that vanishes with its source and content. -/
theorem sources_of_map_of_spellings :
    let position (source : String) (content : Option String) : Option Position :=
      some { start := ⟨1, 1⟩, source := some source, content }
    let declaration (position : Option Position) : Node :=
      .statement (.declaration "top" "0") position
    let node : Node := .block (.stylesheet none [])
      [.block (.rule ["b"]) [] (position "b.css" (some "b")),
        .block (.rule ["a"])
          [declaration (position "css/a.css" (some "a")), declaration (position "" none)]
          (position "css\\a.css" none)] none
    let options : Options := { sourcemap := .written, compress := true, inputSourcemaps := false }
    let reader : Reader := fun _ => .error .notFound
    let code := "a{top:0;top:0;}"
    options.wantsMap = true ∧ options.inputSourcemaps = false ∧
      (((Printer.start options).attach (Tracker.start options)).print
        options.layout node).2 = .ok code ∧
      ∃ map, (stringify options (some node)).value reader = .ok ⟨code, some map⟩ ∧
        map.toRaw.sources = ["css/a.css", "source.css"] ∧
        map.toRaw.sourcesContent = some [some "a", none] := by
  intro position declaration node options reader code
  have hrender : (((Printer.start options).attach (Tracker.start options)).print
      options.layout node).2 = .ok code := by decide +kernel
  obtain ⟨hmarked, map, hprinted, hsources, hcontents⟩ :=
    sources_of_map (show options.wantsMap = true from rfl) rfl hrender reader
  have hnames : (node.positions.map Tracker.sourceOf).eraseDups = ["css/a.css", "source.css"] := by
    decide +kernel
  rw [hmarked, hnames] at hsources
  rw [hmarked, hsources] at hcontents
  refine ⟨rfl, rfl, hrender, map, hprinted, hsources, hcontents.trans ?_⟩
  decide +kernel

end StylePrint
