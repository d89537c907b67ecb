import StylePrint.Proofs.Printing.Finishing
import StylePrint.Proofs.SourceMap.Chaining
import StylePrint.Proofs.SourceMap.Reading
/-!
Where the maps of the sources send mappings. Applying them sends every origin on through the maps
of all files, in order of first sight (`Tracker.mappings_applyFiles`). A file's map only touches
origins in that file, so an origin is sent on through the map of its own source alone, unless that
map sends it into a file that was seen later: then it is sent on once more
(`Tracker.applyMaps_sends_on`, `Tracker.order_of_files_shows`).
-/

namespace StylePrint

open StylePrint.SourceMap StylePrint.Layout

namespace Tracker

/-! ### The files of a tracker -/

/-- Remembering the content of a source keeps the sources distinct. -/
theorem nodup_remember {files : List (String × String)} (h : (files.map Prod.fst).Nodup)
    (source : String) (content : Option String) :
    ((remember files source content).map Prod.fst).Nodup := by
  cases content with
  | none => exact h
  | some content =>
      rw [remember]
      split
      · exact h
      · rename_i hnew
        rw [List.contains_iff_mem] at hnew
        rw [List.map_append]
        exact h.append (List.nodup_singleton source) (by simpa using hnew)

/-- The files of a tracker that follows pieces have distinct names. -/
theorem nodup_follow {t t' : Tracker} {ps : List Piece} (h : t.follow ps = .ok t')
    (ht : (t.files.map Prod.fst).Nodup) : (t'.files.map Prod.fst).Nodup := by
  refine follow_keeps (P := fun t => (t.files.map Prod.fst).Nodup) ?_ ?_ h ht
  · intro t content ht
    exact ht
  · intro t position _ _ ht
    exact nodup_remember ht _ _

/-- Whether a file was seen after another one. -/
def SeenLater (files : List (String × String)) (file later : String) : Prop :=
  ∃ before content after, files = before ++ (file, content) :: after ∧ later ∈ after.map Prod.fst

/-- No file was seen after itself. -/
theorem not_seenLater_self {files : List (String × String)} (h : (files.map Prod.fst).Nodup)
    (file : String) : ¬SeenLater files file file := by
  rintro ⟨before, content, after, rfl, hmem⟩
  rw [List.map_append, List.nodup_append] at h
  exact (List.nodup_cons.mp h.2.1).1 hmem

/-! ### Sending origins on -/

section SendOn

variable (reader : Reader)

/-- The origin that the map of a file gives for an origin: one in another file stays, and so does
every origin when the file links to no map. -/
def sendOn (origin : Origin) (file : String × String) : Origin :=
  match (inputMap? file.2 file.1).run.value reader with
  | .ok (some (index, directory)) => Draft.reroute index file.1 (some directory) origin
  | _ => origin

/-- The origin that the map of its own source gives for an origin: where that map says the place
came from, with the source read from the map's directory and the old name kept when the map has
none. The origin stays when the source came without content, its content links to no map, or the
map does not say where the place came from. -/
def ownOrigin (files : List (String × String)) (origin : Origin) : Origin :=
  match files.lookup origin.source with
  | none => origin
  | some content =>
    match (inputMap? content origin.source).run.value reader with
    | .ok (some (index, directory)) =>
      match index.origin? origin.place with
      | some found =>
        ⟨Draft.located (some directory) found.source, found.place, found.name.or origin.name⟩
      | none => origin
    | _ => origin

variable {reader}

/-- A file's map does not touch the origins in other files. -/
theorem sendOn_of_ne {origin : Origin} {file : String × String} (h : origin.source ≠ file.1) :
    sendOn reader origin file = origin := by
  unfold sendOn
  split
  · rw [Draft.reroute, if_neg h]
  · rfl

/-- The maps of other files do not touch an origin. -/
theorem foldl_sendOn_of_notMem {files : List (String × String)} {origin : Origin}
    (h : origin.source ∉ files.map Prod.fst) : files.foldl (sendOn reader) origin = origin := by
  induction files with
  | nil => rfl
  | cons file rest ih =>
      rw [List.map_cons, List.mem_cons, not_or] at h
      rw [List.foldl_cons, sendOn_of_ne h.1, ih h.2]

/-- The map of an origin's own source sends it where `ownOrigin` says. -/
theorem sendOn_own {files : List (String × String)} {origin : Origin} {content : String}
    (h : files.lookup origin.source = some content) :
    sendOn reader origin (origin.source, content) = ownOrigin reader files origin := by
  rw [ownOrigin, h, sendOn]
  simp only
  split
  · exact if_pos rfl
  · rfl

/-- Through the maps of all files an origin goes where the map of its own source sends it, unless
that is into a file that was seen later. -/
theorem foldl_sendOn {files : List (String × String)} {origin : Origin}
    (h : ¬SeenLater files origin.source (ownOrigin reader files origin).source) :
    files.foldl (sendOn reader) origin = ownOrigin reader files origin := by
  cases hlookup : files.lookup origin.source with
  | none =>
      rw [foldl_sendOn_of_notMem (List.lookup_eq_none_iff_not_mem.mp hlookup), ownOrigin, hlookup]
  | some content =>
      have hown : sendOn reader origin (origin.source, content) = ownOrigin reader files origin :=
        sendOn_own hlookup
      obtain ⟨before, after, hfiles, hbefore⟩ := List.lookup_eq_some_iff.mp hlookup
      -- the files before its own do not touch the origin, nor those after it what it has become
      have hfirst := List.forall_bne_iff_not_mem.mp hbefore
      have hlast : (ownOrigin reader files origin).source ∉ after.map Prod.fst := by
        intro hmem
        exact h ⟨before, content, after, hfiles, hmem⟩
      conv_lhs => rw [hfiles]
      rw [List.foldl_append, List.foldl_cons, foldl_sendOn_of_notMem hfirst, hown,
        foldl_sendOn_of_notMem hlast]

/-! ### Applying the maps -/

variable (reader)

/-- A mapping whose origin is sent on through the maps of files, one after another. -/
def sentOn (files : List (String × String)) (m : Mapping) : Mapping :=
  { m with origin := m.origin.map (files.foldl (sendOn reader)) }

variable {reader}

theorem sentOn_nil : sentOn reader [] = id := by
  funext m
  simp [sentOn]

/-- The map of the first file comes first. -/
theorem sentOn_cons (file : String × String) (rest : List (String × String)) :
    sentOn reader (file :: rest) = sentOn reader rest ∘ sentOn reader [file] := by
  funext m
  simp [sentOn, Function.comp_def]

/-- Where applying the maps of files succeeds, it sends every mapping on through all of them. -/
theorem mappings_applyFiles {files : List (String × String)} {draft draft' : Draft}
    (h : (applyFiles true files draft).value reader = (draft', none)) :
    draft'.mappings.toList = draft.mappings.toList.map (sentOn reader files) := by
  induction files generalizing draft with
  | nil =>
      obtain rfl : draft = draft' := (Prod.mk.inj h).1
      rw [sentOn_nil, List.map_id]
  | cons file rest ih =>
      obtain ⟨source, content⟩ := file
      rw [applyFiles, if_pos rfl, Reading.value_bind] at h
      rw [sentOn_cons, ← List.map_map]
      split at h
      · cases h
      · rename_i hmap
        have hfile : sentOn reader [(source, content)] = id := by
          funext m
          simp [sentOn, sendOn, hmap]
        rw [ih h, hfile, List.map_id]
        rfl
      · rename_i index directory hmap
        have hfile : sentOn reader [(source, content)]
            = Mapping.through index source (some directory) := by
          funext m
          simp [sentOn, sendOn, hmap, Mapping.through]
        rw [ih h, Draft.mappings_chain, hfile]
        rfl

/-- Where the maps of the sources are followed and applying them succeeds, every mapping is sent on
through the maps of all files. -/
theorem mappings_applyMaps {t t' : Tracker} (hinput : t.inputSourcemaps = true)
    (happly : t.applyMaps.value reader = (t', none)) :
    t'.draft.mappings.toList = t.draft.mappings.toList.map (sentOn reader t.files) := by
  unfold applyMaps at happly
  split at happly
  · cases happly
  · rw [Reading.value_bind, hinput] at happly
    cases hrun : (applyFiles true t.files t.draft).value reader with
    | mk draft error =>
        rw [hrun] at happly
        obtain ⟨rfl, hfault⟩ := Prod.mk.inj happly
        cases error with
        | none => exact mappings_applyFiles hrun
        | some error => cases hfault

end SendOn

/-- **Every mapping is sent on through the map of its own source.** When the maps of the sources are
followed and applying them succeeds, every mapping that a tracker recorded keeps its generated
place, and its origin is sent on through the maps of all files in order of first sight. An origin
that the map of its own source does not send on stays. Any other goes where that map sends it,
unless that is into a file that was seen later. -/
theorem applyMaps_sends_on {options : Options} {ps : List Piece} {t t' : Tracker} {reader : Reader}
    (hinput : options.inputSourcemaps = true) (hfollow : (start options).follow ps = .ok t)
    (happly : t.applyMaps.value reader = (t', none)) :
    List.Forall₂ (fun m m' => m'.generated = m.generated ∧
        m'.origin = m.origin.map (t.files.foldl (sendOn reader)) ∧
        ∀ origin, m.origin = some origin →
          (ownOrigin reader t.files origin = origin → m'.origin = some origin) ∧
          (¬SeenLater t.files origin.source (ownOrigin reader t.files origin).source →
            m'.origin = some (ownOrigin reader t.files origin)))
      t.draft.mappings.toList t'.draft.mappings.toList := by
  have hnodup : (t.files.map Prod.fst).Nodup := nodup_follow hfollow .nil
  have hmappings := mappings_applyMaps ((flags_follow hfollow).1.trans hinput) happly
  rw [hmappings, List.forall₂_map_right_iff, List.forall₂_same]
  intro m hm
  refine ⟨rfl, rfl, ?_⟩
  intro origin horigin
  have own : ¬SeenLater t.files origin.source (ownOrigin reader t.files origin).source →
      (sentOn reader t.files m).origin = some (ownOrigin reader t.files origin) := by
    intro hlater
    rw [sentOn, horigin, Option.map_some, foldl_sendOn hlater]
  refine ⟨?_, own⟩
  intro hstays
  rw [hstays] at own
  exact own (not_seenLater_self hnodup origin.source)

/-! ### Files that link into one another -/

/-- The text of a map that sends the start of a file to the start of another. -/
def startMap (source : String) : String :=
  "\x7b\"version\":3,\"sources\":[\"" ++ source
    ++ "\"],\"names\":[],\"mappings\":\"AAAA\"\x7d"

/-- The maps of two files: the one of `a.css` leads into `b.css`, and that one's into `c.scss`. -/
def twoMaps : Reader := fun path =>
  if path = "a.css.map" then .ok (startMap "b.css")
  else if path = "b.css.map" then .ok (startMap "c.scss")
  else .error .notFound

/-- What is printed of a file that links to the map beside it: its first character. -/
def visit (source : String) : List Piece :=
  [.mark {
      start := ⟨1, 1⟩
      source := some source
      content := some ("/*# sourceMappingURL=" ++ source ++ ".map */") },
    .text "x"]

/-- The file that another one's map leads into is seen first. -/
theorem applyMaps_sends_on_of_two :
    ∃ t t', (start {}).follow (visit "b.css" ++ visit "a.css") = .ok t ∧
      t.applyMaps.value twoMaps = (t', none) ∧
      List.Forall₂ (fun m m' => m'.generated = m.generated ∧
          m'.origin = m.origin.map (t.files.foldl (sendOn twoMaps)) ∧
          ∀ origin, m.origin = some origin →
            (ownOrigin twoMaps t.files origin = origin → m'.origin = some origin) ∧
            (¬SeenLater t.files origin.source (ownOrigin twoMaps t.files origin).source →
              m'.origin = some (ownOrigin twoMaps t.files origin)))
        t.draft.mappings.toList t'.draft.mappings.toList := by
  obtain ⟨t, ht⟩ : ∃ t, (start {}).follow (visit "b.css" ++ visit "a.css") = .ok t := ⟨_, rfl⟩
  have happly : (t.applyMaps.value twoMaps).2 = none := by
    obtain rfl := Except.ok.inj ht
    decide +kernel
  exact ⟨t, _, ht, Prod.ext rfl happly, applyMaps_sends_on rfl ht (Prod.ext rfl happly)⟩

/-- **The order of files shows.** The map of `a.css` sends its mapping into `b.css`. When `b.css`
was seen later, its map sends that mapping on again. -/
theorem order_of_files_shows :
    let origins (ps : List Piece) : Option (List (Option Origin) × Option ApplyFault) :=
      ((start {}).follow ps).toOption.map fun t =>
        ((t.applyMaps.value twoMaps).1.draft.mappings.toList.map Mapping.origin,
          (t.applyMaps.value twoMaps).2)
    let own := ((start {}).follow (visit "a.css" ++ visit "b.css")).toOption.map fun t =>
      t.draft.mappings.toList.map fun m => m.origin.map (ownOrigin twoMaps t.files)
    own = some [some ⟨"b.css", ⟨1, 0⟩, none⟩, some ⟨"c.scss", ⟨1, 0⟩, none⟩] ∧
      origins (visit "a.css" ++ visit "b.css")
        = some ([some ⟨"c.scss", ⟨1, 0⟩, none⟩, some ⟨"c.scss", ⟨1, 0⟩, none⟩], none) ∧
      origins (visit "b.css" ++ visit "a.css")
        = some ([some ⟨"c.scss", ⟨1, 0⟩, none⟩, some ⟨"b.css", ⟨1, 0⟩, none⟩], none) := by
  decide +kernel

end Tracker

end StylePrint
