import StylePrint.Proofs.Printing.Files
import StylePrint.Proofs.Session.Accuracy
import StylePrint.Proofs.Session.Counting
import StylePrint.Proofs.Session.Tracking
import StylePrint.Proofs.SourceMap.Needed
/-!
Which files a session reads. Applying the maps of files asks for the file that each of them needs,
in order, and stops behind the first whose map is not had (`Tracker.run_applyFiles`). So a session
asks for exactly these when it prints a tree with a map that follows the maps of its sources, and
never for any file otherwise (`Session.reads_are_exact`).
-/

namespace StylePrint

open StylePrint.SourceMap StylePrint.Sheet

namespace Tracker

variable (reader : Reader)

/-! ### One file -/

/-- The map that the content of a file links to, decoded, if it links to any. -/
def ownMap? (file : String × String) : Except MapError (Option Index) :=
  linkedIndex? reader file.2 file.1

/-- The path that the map of a file is at, if it needs to be read. -/
def ownPath? (file : String × String) : Option String :=
  needed? file.2 file.1

/-- For the map of a file the path is asked for that it is at, if any, and no other. -/
theorem asked_inputMap? (content source : String) :
    (inputMap? content source).run.asked reader = (ownPath? (source, content)).toList := by
  rw [inputMap?, Reading.asked_run_bind_of_quiet, asked_linkedMap?]
  · rfl
  · intro linked
    cases linked with
    | none => rfl
    | some linked =>
        simp only
        rw [Reading.asked_run_bind_of_quiet, Reading.asked_liftM]
        exact fun index => rfl

/-- The map of a file is had when its text is looked up, read and decoded. -/
theorem value_inputMap? (content source : String) :
    ((inputMap? content source).run.value reader).map (·.map Prod.fst)
      = ownMap? reader (source, content) := by
  rw [inputMap?, Reading.value_run_bind, linkedMap?, ownMap?, linkedIndex?]
  cases LinkComment.address? content with
  | none => rfl
  | some address =>
      have hload : (some <$> load address source).run.value reader
          = (load address source).run.value reader >>= fun linked => .ok (some linked) := by
        rw [map_eq_pure_bind, Reading.value_run_bind]
        rfl
      simp only [hload, ← value_load]
      cases (load address source).run.value reader with
      | error fault => rfl
      | ok linked =>
          refine (congrArg (Except.map _) (Reading.value_liftM_bind _ _ reader)).trans ?_
          show _ = (Index.ofRaw linked.map >>= _)
          cases Index.ofRaw linked.map <;> rfl

/-! ### Files one after another -/

variable {reader}

/-- With the map of the first file had, the others come next. -/
theorem run_applyFiles_cons {file : String × String} {found : Option Index}
    (h : ownMap? reader file = .ok found) (rest : List (String × String)) (draft : Draft) :
    ∃ draft', (applyFiles true (file :: rest) draft).run reader
      = ((applyFiles true rest draft').value reader,
          (ownPath? file).toList ++ (applyFiles true rest draft').asked reader) := by
  obtain ⟨source, content⟩ := file
  rw [applyFiles, if_pos rfl, Reading.run_bind, asked_inputMap?]
  rw [← value_inputMap?] at h
  cases hvalue : (inputMap? content source).run.value reader with
  | error fault =>
      rw [hvalue] at h
      cases h
  | ok own =>
      cases own with
      | none => exact ⟨_, rfl⟩
      | some own => exact ⟨_, rfl⟩

/-- Where the map of the first file is not had, applying ends there. -/
theorem run_applyFiles_refused {file : String × String} {e : MapError}
    (h : ownMap? reader file = .error e) (rest : List (String × String)) (draft : Draft) :
    ∃ draft', (applyFiles true (file :: rest) draft).run reader
      = ((draft', some e), (ownPath? file).toList) := by
  obtain ⟨source, content⟩ := file
  rw [applyFiles, if_pos rfl, Reading.run_bind, asked_inputMap?]
  rw [← value_inputMap?] at h
  cases hvalue : (inputMap? content source).run.value reader with
  | error fault =>
      rw [hvalue] at h
      obtain rfl : fault = e := Except.error.inj h
      exact ⟨_, congrArg (Prod.mk _) (List.append_nil _)⟩
  | ok own =>
      rw [hvalue] at h
      cases h

/-- Whether each of the files links to no map or to one that is had. -/
def Had (reader : Reader) (files : List (String × String)) : Prop :=
  ∀ file ∈ files, ∃ found, ownMap? reader file = .ok found

/-- Files whose maps are had are asked for in order, and the others come next. -/
theorem run_applyFiles {before : List (String × String)} (h : Had reader before)
    (rest : List (String × String)) (draft : Draft) :
    ∃ draft', (applyFiles true (before ++ rest) draft).run reader
      = ((applyFiles true rest draft').value reader,
          before.filterMap ownPath? ++ (applyFiles true rest draft').asked reader) := by
  induction before generalizing draft with
  | nil => exact ⟨draft, rfl⟩
  | cons file before ih =>
      obtain ⟨⟨found, hfound⟩, hbefore⟩ := List.forall_mem_cons.mp h
      obtain ⟨first, hfirst⟩ := run_applyFiles_cons hfound (before ++ rest) draft
      obtain ⟨draft', hrest⟩ := ih hbefore first
      refine ⟨draft', ?_⟩
      have hpaths : (file :: before).filterMap ownPath?
          = (ownPath? file).toList ++ before.filterMap ownPath? := by
        rw [List.filterMap_eq_flatMap_toList, List.filterMap_eq_flatMap_toList, List.flatMap_cons]
      rw [List.cons_append, hfirst, Reading.value, Reading.asked, hrest, hpaths, List.append_assoc]

/-- Where the maps of the sources are followed, applying them applies the files of the tracker. -/
theorem run_applyMaps {t : Tracker} (hinput : t.inputSourcemaps = true)
    (happlied : t.applied = false) (reader : Reader) :
    t.applyMaps.run reader
      = let (applied, asked) := (applyFiles true t.files t.draft).run reader
        (({ t with draft := applied.1, applied := true }, applied.2.map .map), asked) := by
  unfold applyMaps
  rw [happlied, hinput, if_neg Bool.false_ne_true, Reading.run_bind]
  exact congrArg (Prod.mk _) (List.append_nil _)

end Tracker

/-! ### One tree -/

section Mapped

variable {options : Options} {node : Node} {t : Tracker} {reader : Reader}
  (hinput : options.inputSourcemaps = true)
  (hfollow : (Tracker.start options).follow
    (Layout.pieces options.indentation 1 (options.layout.steps node)) = .ok t)

include hinput hfollow

/-- Where the maps of the sources are followed, printing with a map comes to applying the files that
the tracker has remembered. -/
theorem run_mapped :
    (mapped options node).run reader
      = let (applied, asked) := (Tracker.applyFiles true t.files t.draft).run reader
        (match applied.2 with
          | some e => .error (.map e)
          | none => .ok ⟨options.layout.text options.indentation node,
              some (Session.mapOf options.sourcemap applied.1)⟩, asked) := by
  obtain ⟨hflag, happlied⟩ := Tracker.flags_follow hfollow
  have happly := Tracker.run_applyMaps (hflag.trans hinput) happlied reader
  rw [mapped, hfollow]
  simp only [Reading.run_bind, Reading.value, Reading.asked, happly]
  obtain ⟨⟨draft, error⟩, asked⟩ := (Tracker.applyFiles true t.files t.draft).run reader
  cases error with
  | none => exact congrArg (Prod.mk _) (List.append_nil _)
  | some e => exact congrArg (Prod.mk _) (List.append_nil _)

/-- With the maps of all files had, printing with a map succeeds and asks for each that needs to be
read. -/
theorem mapped_of_had (h : Tracker.Had reader t.files) :
    ∃ map, (mapped options node).run reader
      = (.ok ⟨options.layout.text options.indentation node, some map⟩,
          t.files.filterMap Tracker.ownPath?) := by
  obtain ⟨draft, hrun⟩ := Tracker.run_applyFiles h [] t.draft
  rw [List.append_nil] at hrun
  rw [run_mapped hinput hfollow, hrun]
  exact ⟨_, congrArg (Prod.mk _) (List.append_nil _)⟩

/-- The first file whose map is not had is the last one that printing with a map asks anything
for. -/
theorem mapped_of_refused {before after : List (String × String)} {file : String × String}
    {e : MapError} (hsplit : t.files = before ++ file :: after) (h : Tracker.Had reader before)
    (hfile : Tracker.ownMap? reader file = .error e) :
    (mapped options node).run reader
      = (.error (.map e), (before ++ [file]).filterMap Tracker.ownPath?) := by
  obtain ⟨draft, hbefore⟩ := Tracker.run_applyFiles h (file :: after) t.draft
  obtain ⟨draft', hrefused⟩ := Tracker.run_applyFiles_refused hfile after draft
  rw [Reading.value, Reading.asked, hrefused] at hbefore
  have hpath : [file].filterMap Tracker.ownPath? = (Tracker.ownPath? file).toList := by
    rw [List.filterMap_eq_flatMap_toList, List.flatMap_singleton]
  rw [run_mapped hinput hfollow, hsplit, hbefore, List.filterMap_append, hpath]

end Mapped

namespace Session

variable {options : Options} {s : Session}

/-- A faithful session that is asked for a tree reads what a new session reads, and gives the same
answer. -/
theorem Faithful.run_serve (h : s.Faithful options) (node : Option Node) (reader : Reader) :
    ((s.serve (.stringify node)).value reader).2
        = .printed ((StylePrint.stringify options node).value reader) ∧
      (s.serve (.stringify node)).asked reader
        = (StylePrint.stringify options node).asked reader := by
  obtain ⟨s', heq, -⟩ := h.stringify_eq node
  rw [Session.serve, heq, Reading.bind_assoc, Reading.value_bind, Reading.asked_bind]
  exact ⟨rfl, List.append_nil _⟩

/-- Nothing is read for a tree unless its map is made from a finished text and follows the maps of
the sources. -/
theorem asked_stringify_of_idle {node : Node} {reader : Reader}
    (h : options.wantsMap = false ∨ options.inputSourcemaps = false ∨
      ∃ fault, (((Printer.start options).attach (Tracker.start options)).print
        options.layout node).2 = .error fault) :
    (StylePrint.stringify options (some node)).asked reader = [] := by
  by_cases hmap : options.wantsMap = true
  · rw [stringify_of_wantsMap hmap]
    rcases h with hnone | hinput | ⟨fault, hfault⟩
    · rw [hmap] at hnone
      cases hnone
    · cases hfollow : (Tracker.start options).follow
          (Layout.pieces options.indentation 1 (options.layout.steps node)) with
      | error fault =>
          rw [mapped, hfollow]
          rfl
      | ok t =>
          rw [mapped_of_follow hinput hfollow]
          rfl
    · have hfollow : (Tracker.start options).follow
          (Layout.pieces options.indentation 1 (options.layout.steps node)) = .error fault :=
        Printer.follow_of_outcome_error hfault
      rw [mapped, hfollow]
      rfl
  · rw [stringify_of_not_wantsMap (Bool.eq_false_iff.mpr hmap)]
    rfl

/-- **Exactly the needed files are read.** A session that has served any requests is asked for a
tree. When a map is wanted that follows the maps of the sources, and the tree is printed with
success, then the files of its sources are gone through: those among the marked positions that come
with content, each once, with its first content. When the map of each is had, or none is linked, the
session asks for the map files that are needed, in this order and for nothing else, and succeeds.
Otherwise it asks for those up to the first file whose map cannot be looked up, read or decoded, and
fails for that reason. In every other case, and when it is asked for the text of a tree alone, it
asks for nothing. -/
theorem reads_are_exact (options : Options) (earlier : List (Request × Reader)) (node : Node)
    (reader : Reader) :
    let s := served options earlier
    let step := s.serve (.stringify (some node))
    let rendered := (((Printer.start options).attach (Tracker.start options)).print
      options.layout node).2
    let files := Tracker.filesIn ((options.layout.steps node).filterMap Layout.Step.position?)
    (options.wantsMap = true → options.inputSourcemaps = true → ∀ code, rendered = .ok code →
      (Tracker.Had reader files →
        step.asked reader = files.filterMap Tracker.ownPath? ∧
          ∃ map, (step.value reader).2 = .printed (.ok ⟨code, some map⟩)) ∧
      ∀ before file after e, files = before ++ file :: after → Tracker.Had reader before →
        Tracker.ownMap? reader file = .error e →
        step.asked reader = (before ++ [file]).filterMap Tracker.ownPath? ∧
          (step.value reader).2 = .printed (.error (.map e))) ∧
    ((options.wantsMap = false ∨ options.inputSourcemaps = false ∨
        ∃ fault, rendered = .error fault) → step.asked reader = []) ∧
    (s.serve (.stringify none)).asked reader = [] ∧ (s.serve (.compile node)).asked reader = [] := by
  intro s step rendered files
  have hfaithful : s.Faithful options := (tallied_served options earlier).faithful
  obtain ⟨hvalue, hasked⟩ := hfaithful.run_serve (some node) reader
  refine ⟨?_, ?_, rfl, rfl⟩
  · intro hmap hinput code hrender
    obtain ⟨⟨t, hfollow⟩, htext⟩ := Printer.follow_of_outcome hrender
    have hfiles : t.files = files := by
      rw [Tracker.files_of_follow hfollow, ← Layout.positions_steps options.layout node]
    rw [stringify_of_wantsMap hmap] at hvalue hasked
    constructor
    · intro hhad
      obtain ⟨map, hrun⟩ := mapped_of_had hinput hfollow (hfiles ▸ hhad)
      refine ⟨?_, map, ?_⟩
      · rw [hasked, Reading.asked, hrun, hfiles]
      · rw [hvalue, Reading.value, hrun, ← htext]
        rfl
    · intro before file after e hsplit hbefore hfile
      have hrun := mapped_of_refused hinput hfollow (hfiles.trans hsplit) hbefore hfile
      constructor
      · rw [hasked, Reading.asked, hrun]
      · rw [hvalue, Reading.value, hrun]
  · intro hidle
    rw [hasked]
    exact asked_stringify_of_idle hidle

/-- Four files after the text of a tree has been asked for: one is marked again with another content,
one links to nothing, the map of one is not there, and the last is not asked for. -/
theorem reads_are_exact_of_four :
    let link (address : String) : Option String :=
      some ("/*# sourceMappingURL=" ++ address ++ " */")
    let rule (source : String) (content : Option String) : Node :=
      .block (.rule ["a"]) [.statement (.declaration "top" "0") none]
        (some { start := ⟨1, 1⟩, source := some source, content })
    let node : Node := .block (.stylesheet none [])
      [rule "a.css" (link "a.css.map"), rule "b.css" (some ""), rule "a.css" (link "other.map"),
        rule "lib\\c.css" (link "../c.map"), rule "d.css" (link "b.css.map")] none
    let options : Options := { sourcemap := .draft }
    let step := (served options [(.compile node, Tracker.twoMaps)]).serve (.stringify (some node))
    step.asked Tracker.twoMaps = ["a.css.map", "c.map"] ∧
      (step.value Tracker.twoMaps).2 = .printed (.error (.map (.read "c.map" .notFound))) := by
  intro link rule node options step
  have hrender := (Printer.start options).outcome_accepted options options.layout node
    (by decide +kernel)
  have hfiles : Tracker.filesIn ((options.layout.steps node).filterMap Layout.Step.position?)
      = [("a.css", "/*# sourceMappingURL=a.css.map */"), ("b.css", "")]
        ++ ("lib/c.css", "/*# sourceMappingURL=../c.map */")
        :: [("d.css", "/*# sourceMappingURL=b.css.map */")] := by
    decide +kernel
  have hhad : Tracker.Had Tracker.twoMaps
      [("a.css", "/*# sourceMappingURL=a.css.map */"), ("b.css", "")] := by
    have hoks : ∀ file ∈ [("a.css", "/*# sourceMappingURL=a.css.map */"), ("b.css", "")],
        (Tracker.ownMap? Tracker.twoMaps file).toBool = true := by decide +kernel
    intro file hfile
    have hok := hoks file hfile
    cases hmap : Tracker.ownMap? Tracker.twoMaps file with
    | ok found => exact ⟨found, rfl⟩
    | error e =>
        rw [hmap] at hok
        cases hok
  have hfault : Tracker.ownMap? Tracker.twoMaps
      ("lib/c.css", "/*# sourceMappingURL=../c.map */") = .error (.read "c.map" .notFound) := by
    decide +kernel
  obtain ⟨hexact, -⟩ := reads_are_exact options [(.compile node, Tracker.twoMaps)] node
    Tracker.twoMaps
  obtain ⟨hasked, hanswer⟩ := (hexact rfl rfl _ hrender).2 _ _ _ _ hfiles hhad hfault
  refine ⟨hasked.trans ?_, hanswer⟩
  decide +kernel

end Session

end StylePrint
