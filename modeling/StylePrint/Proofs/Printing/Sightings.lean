import StylePrint.Proofs.Session.Tracking
/-!
What a tracker has seen, whatever was written in between. `Tracker.sightings` leaves out of a
tracker all that depends on the text: the generated places. What stays is told by the positions of
the tree alone (`Printer.sightings_print`), so the two layouts, which write different texts, see the
same (`layouts_see_one_tree`).
-/

namespace StylePrint

open StylePrint.SourceMap StylePrint.Sheet StylePrint.Layout

/-! ### Sightings -/

/-- What a tracker keeps of the positions it has seen, less the places of the text. -/
structure Sightings where
  /-- The origins of the mappings in order. -/
  origins : List (Option Origin) := []
  /-- The sources of the mappings in order of first use. -/
  sources : List String := []
  names : List String := []
  /-- The sources that came with content, in order of first sight. -/
  files : List (String × String) := []
  deriving DecidableEq, Repr

/-- Adds a position. -/
def Sightings.see (s : Sightings) (position : Position) : Sightings where
  origins := s.origins ++ [some (Tracker.originOf position)]
  sources := addNew s.sources (Tracker.sourceOf position)
  names := s.names
  files := Tracker.remember s.files (Tracker.sourceOf position) position.content

namespace Tracker

/-- What a tracker has seen. -/
def sightings (t : Tracker) : Sightings where
  origins := t.draft.mappings.toList.map Mapping.origin
  sources := t.draft.sources
  names := t.draft.names
  files := t.files

@[simp] theorem sightings_start (options : Options) : (start options).sightings = {} := rfl

@[simp] theorem sightings_advance (t : Tracker) (text : String) :
    (t.advance text).sightings = t.sightings := rfl

/-- A mark that is taken adds its position. -/
@[simp] theorem sightings_marked (t : Tracker) (position : Position) :
    (t.marked position).sightings = t.sightings.see position := by
  simp [sightings, Sightings.see, marked, Draft.record, mappingAt, Mapping.source, Mapping.name,
    originOf]

/-- A tracker that follows pieces to the end sees the positions of their marks, in order. -/
theorem sightings_follow {t t' : Tracker} {ps : List Piece} (h : t.follow ps = .ok t') :
    t'.sightings = ((announced ps).map Prod.fst).foldl Sightings.see t.sightings := by
  induction ps generalizing t with
  | nil =>
      obtain rfl : t = t' := Except.ok.inj h
      rfl
  | cons p ps ih =>
      cases p with
      | mark position =>
          rw [follow] at h
          split at h
          · rename_i next hmark
            obtain ⟨-, rfl⟩ := mark_eq_ok.mp hmark
            rw [ih h, sightings_marked]
            rfl
          · cases h
      | text content =>
          rw [follow] at h
          rw [ih h, sightings_advance]
          rfl

end Tracker

/-! ### Printing -/

/-- Pieces announce the positions of their headings. -/
theorem Layout.Heads.positions {ps : List Piece} {hs : List (Position × String)}
    (h : Heads ps hs) : (announced ps).map Prod.fst = hs.map Prod.fst := by
  unfold Heads at h
  generalize announced ps = entries at h ⊢
  induction h with
  | nil => rfl
  | cons hfirst _ ih => rw [List.map_cons, List.map_cons, hfirst.1, ih]

/-- A new tracker that follows a tree to the end has seen the positions of the tree. -/
theorem Tracker.sightings_of_follow {options : Options} {layout : Layout} {unit : String}
    {node : Node} {t : Tracker}
    (h : (start options).follow (pieces unit 1 (layout.steps node)) = .ok t) :
    t.sightings = node.positions.foldl Sightings.see {} := by
  rw [sightings_follow h, (heads_layout layout unit node).positions, positions_headings,
    sightings_start]

namespace Printer

/-- Printed with success, a tree leaves a new tracker that has seen the positions of the tree. -/
theorem sightings_print {p q : Printer} {options : Options} {layout : Layout} {node : Node}
    {code : String} (h : (p.attach (Tracker.start options)).print layout node = (q, .ok code)) :
    ∃ t, q.tracker = some t ∧ t.sightings = node.positions.foldl Sightings.see {} := by
  cases hf : (Tracker.start options).follow (Layout.pieces p.unit 1 (layout.steps node)) with
  | error fault =>
      obtain ⟨q', hprint, -⟩ := p.print_refused _ layout node hf
      rw [hprint] at h
      cases (Prod.mk.inj h).2
  | ok t =>
      rw [p.print_tracked _ layout node hf] at h
      obtain ⟨rfl, -⟩ := Prod.mk.inj h
      exact ⟨t, rfl, Tracker.sightings_of_follow hf⟩

/-- Printing with a new tracker succeeds exactly when no position of the tree is refused. -/
theorem outcome_ok_iff (p : Printer) (options : Options) (layout : Layout) (node : Node) :
    (∃ code, ((p.attach (Tracker.start options)).print layout node).2 = .ok code) ↔
      ∀ position ∈ node.positions, ¬position.Refused := by
  constructor
  · rintro ⟨code, hcode⟩ position hposition hrefused
    obtain ⟨fault, hfault⟩ :=
      (p.outcome_error_iff options layout node).mpr ⟨position, hposition, hrefused⟩
    rw [hcode] at hfault
    cases hfault
  · intro h
    exact ⟨_, p.outcome_accepted options layout node h⟩

end Printer

/-- **Both layouts see the same tree.** With any units of indentation, printing a tree with a new
tracker succeeds in the readable layout exactly when it does in the compact one. Then both trackers
hold the same origins in the same order, the same sources and names, and the same remembered
files. -/
theorem layouts_see_one_tree (p q : Printer) (options : Options) (node : Node) :
    let readable := (p.attach (Tracker.start options)).print .readable node
    let compact := (q.attach (Tracker.start options)).print .compact node
    ((∃ code, readable.2 = .ok code) ↔ ∃ code, compact.2 = .ok code) ∧
      ∀ code code', readable.2 = .ok code → compact.2 = .ok code' →
        ∃ t t', readable.1.tracker = some t ∧ compact.1.tracker = some t' ∧
          t.draft.mappings.toList.map Mapping.origin
            = t'.draft.mappings.toList.map Mapping.origin ∧
          t.draft.sources = t'.draft.sources ∧ t.draft.names = t'.draft.names ∧
          t.files = t'.files := by
  intro readable compact
  constructor
  · rw [p.outcome_ok_iff, q.outcome_ok_iff]
  · intro code code' hreadable hcompact
    obtain ⟨t, ht, hseen⟩ := Printer.sightings_print (p := p) (Prod.ext rfl hreadable)
    obtain ⟨t', ht', hseen'⟩ := Printer.sightings_print (p := q) (Prod.ext rfl hcompact)
    have hsame : t.sightings = t'.sightings := hseen.trans hseen'.symm
    exact ⟨t, t', ht, ht', congrArg Sightings.origins hsame, congrArg Sightings.sources hsame,
      congrArg Sightings.names hsame, congrArg Sightings.files hsame⟩

end StylePrint
