import StylePrint.Proofs.Printing.Finishing
import StylePrint.Proofs.Printing.Heading
import StylePrint.Proofs.Printing.Spacing
import StylePrint.Proofs.Session.Printing
import StylePrint.Proofs.SourceMap.Lookup
import StylePrint.Proofs.SourceMap.RoundTrip
/-!
The maps of the readable layout, from a tree to the answers of an index. The mappings that printing
records stand at strictly ascending places, so writing them down and decoding them changes neither
their order nor their number, and between one mapping and the next the index answers with the
origin of the node printed there (`readable_map_is_accurate`).
-/

namespace StylePrint

open StylePrint.SourceMap StylePrint.Sheet

/-! ### What printing with a map leaves -/

/-- Where the maps of the sources are not followed and the tracker follows a tree to the end, the map
is what the tracker recorded, with the contents of its files. -/
theorem mapped_of_follow {options : Options} {node : Node} {t : Tracker}
    (hinput : options.inputSourcemaps = false)
    (hfollow : (Tracker.start options).follow
      (Layout.pieces options.indentation 1 (options.layout.steps node)) = .ok t) :
    mapped options node = pure (.ok ⟨options.layout.text options.indentation node,
      some (Session.mapOf options.sourcemap (t.draft.attach t.files))⟩) := by
  obtain ⟨hflag, happlied⟩ := Tracker.flags_follow hfollow
  rw [mapped, hfollow]
  simp only [Tracker.applyMaps_unfollowed (hflag.trans hinput) happlied, Reading.pure_bind]

/-- A map that does not follow the maps of the sources is what a tracker recorded, with contents. -/
theorem mapped_unfollowed {options : Options} {node : Node} {reader : Reader} {printed : Printed}
    (hinput : options.inputSourcemaps = false)
    (h : (mapped options node).value reader = .ok printed) :
    ∃ t contents, (Tracker.start options).follow
        (Layout.pieces options.indentation 1 (options.layout.steps node)) = .ok t ∧
      printed = ⟨options.layout.text options.indentation node,
        some (Session.mapOf options.sourcemap { t.draft with contents })⟩ := by
  cases hfollow : (Tracker.start options).follow
      (Layout.pieces options.indentation 1 (options.layout.steps node)) with
  | error fault =>
      rw [mapped, hfollow] at h
      cases h
  | ok t =>
      obtain ⟨contents, hattach⟩ := t.draft.attach_eq t.files
      rw [mapped_of_follow hinput hfollow, hattach] at h
      exact ⟨t, contents, rfl, (Except.ok.inj h).symm⟩

/-! ### The answers of the index -/

/-- Whether a place lies in the stretch of the mapping with an index: on its line, not before it,
and before the next mapping. -/
def SourceMap.Draft.Stretch (draft : Draft) (i : Nat) (place : Place) : Prop :=
  ∃ m, draft.mappings[i]? = some m ∧ m.generated.line = place.line ∧
    m.generated.column ≤ place.column ∧
    ∀ next ∈ draft.mappings[i + 1]?, place.order next.generated = .lt

/-- Related lists have related elements at each index. -/
theorem forall₂_getElem? {α β : Type} {R : α → β → Prop} {xs : List α} {ys : List β}
    (h : List.Forall₂ R xs ys) {i : Nat} {x : α} {y : β} (hx : xs[i]? = some x)
    (hy : ys[i]? = some y) : R x y := by
  obtain ⟨hi, rfl⟩ := List.getElem?_eq_some_iff.mp hx
  obtain ⟨hj, rfl⟩ := List.getElem?_eq_some_iff.mp hy
  exact (List.forall₂_iff_get.mp h).2 i hi hj

/-- Both forms of a map are written alike. -/
@[simp] theorem toRaw_mapOf (form : MapForm) (draft : Draft) :
    (Session.mapOf form draft).toRaw = draft.finish := by
  cases form <;> rfl

/-- Along spaced pieces that leave room, a new tracker records mappings at strictly ascending
places, fewer than the units written. -/
theorem ascending_of_spaced {options : Options} {ps : List Layout.Piece} {t : Tracker}
    (hspaced : Layout.Spaced ps) (hshort : Text.units (Layout.charsOf ps) < 4294967295)
    (hfollow : (Tracker.start options).follow ps = .ok t) :
    (t.draft.mappings.toList.Pairwise fun a b => a.generated.order b.generated = .lt) ∧
      t.draft.mappings.toList.length ≤ 2 ^ 32 := by
  have hmappings : t.draft.mappings.toList = Tracker.along Caret.start ps :=
    Tracker.mappings_follow hfollow
  rw [hmappings]
  refine ⟨Tracker.pairwise_along hspaced (Caret.hasRoom_start hshort) (by decide), ?_⟩
  have := Tracker.length_along_le (k := Caret.start) hspaced
  omega

/-- **The maps of the readable layout are accurate.** When a tree is printed in the readable layout
with a map, without following the maps of its sources, and its text takes fewer units than the
greatest word, then the map can be decoded. Its mappings point at the headings of the tree, in
order and at strictly ascending places, and every place from one of them up to the next on its line
is answered for with the start of that very node, in its own source and without a name. -/
theorem readable_map_is_accurate {options : Options} {node : Node} {reader : Reader}
    {printed : Printed} (hreadable : options.compress = false) (hmap : options.wantsMap = true)
    (hinput : options.inputSourcemaps = false)
    (h : (stringify options (some node)).value reader = .ok printed)
    (hshort : Text.units printed.code.toList < 4294967295) :
    ∃ draft index, printed.map = some (Session.mapOf options.sourcemap draft) ∧
      Index.ofRaw (Session.mapOf options.sourcemap draft).toRaw = .ok index ∧
      List.Forall₂ (PointsAt printed.code.toList) draft.mappings.toList
        (Layout.readable.headings options.indentation 1 node) ∧
      (draft.mappings.toList.Pairwise fun a b => a.generated.order b.generated = .lt) ∧
      ∀ (i : Nat) (position : Position) (heading : String) (place : Place),
        (Layout.readable.headings options.indentation 1 node)[i]? = some (position, heading) →
        draft.Stretch i place →
        index.origin? place = some ⟨Tracker.sourceOf position,
          ⟨position.start.line, position.start.column - 1⟩, none⟩ := by
  rw [stringify_of_wantsMap hmap] at h
  obtain ⟨t, contents, hfollow, rfl⟩ := mapped_unfollowed hinput h
  have hlayout : options.layout = .readable := by
    rw [Options.layout, hreadable]
    rfl
  rw [hlayout] at hfollow
  simp only [hlayout, Layout.text, String.toList_ofList] at hshort ⊢
  have hspaced := Layout.spaced_readable options.indentation node
  obtain ⟨hascending, hsize⟩ := ascending_of_spaced hspaced hshort hfollow
  have hmappings : t.draft.mappings.toList = Tracker.along Caret.start
      (Layout.pieces options.indentation 1 (Layout.readable.steps node)) :=
    Tracker.mappings_follow hfollow
  have hpoints := pointsAt_along (Layout.heads_layout .readable options.indentation node)
  have hreach : t.draft.Reachable none none := Tracker.reachable_follow hfollow .empty
  have hsound : Draft.Sound { t.draft with contents } :=
    ⟨hreach.sound.placed, hreach.sound.sources, hreach.sound.names⟩
  have hdecode := hsound.decode_ascending hreach.heading.2 hsize hascending
  rw [← hmappings] at hpoints
  refine ⟨_, _, rfl, (congrArg Index.ofRaw (toRaw_mapOf ..)).trans hdecode, hpoints, hascending, ?_⟩
  rintro i position heading place hheading ⟨m, hm, hline, hcolumn, hnext⟩
  rw [← Array.getElem?_toList] at hm hnext
  have hanswer : Index.closest? t.draft.mappings.toList place = some m :=
    Index.closest?_getElem? hascending hm hline hcolumn hnext
  obtain ⟨before, after, -, -, -, horigin⟩ := forall₂_getElem? hpoints hm hheading
  show (Index.closest? t.draft.mappings.toList place).bind Mapping.origin = _
  rw [hanswer, Option.bind_some, horigin]

/-- Two rules with empty selectors, texts and indentation, one inside a block: their marks stand
close together, and still each has its own place. -/
theorem readable_map_is_accurate_of_empty :
    let position (line column : UInt32) : Option Position :=
      some { start := ⟨line, column⟩, source := some "a.css" }
    let rule (line : UInt32) : Node := .block (.rule [""])
      [.statement (.declaration "" "") (position line 3)] (position line 1)
    let node : Node := .block (.stylesheet none []) [rule 1, .block .host [rule 2] none] none
    let code := " \x7b\n: ;\n\x7d\n\n@host \x7b\n \x7b\n: ;\n\x7d\n\x7d"
    let reader : Reader := fun _ => .error .notFound
    ∃ map, (stringify { sourcemap := .draft, indent := some "", inputSourcemaps := false }
        (some node)).value reader = .ok ⟨code, some map⟩ ∧
      ∃ draft index, some map = some (Session.mapOf .draft draft) ∧
        Index.ofRaw (Session.mapOf .draft draft).toRaw = .ok index ∧
        List.Forall₂ (PointsAt code.toList) draft.mappings.toList
          (Layout.readable.headings "" 1 node) ∧
        (draft.mappings.toList.Pairwise fun a b => a.generated.order b.generated = .lt) ∧
        ∀ (i : Nat) (position : Position) (heading : String) (place : Place),
          (Layout.readable.headings "" 1 node)[i]? = some (position, heading) →
          draft.Stretch i place →
          index.origin? place = some ⟨Tracker.sourceOf position,
            ⟨position.start.line, position.start.column - 1⟩, none⟩ := by
  intro position rule node code reader
  obtain ⟨map, h⟩ : ∃ map, (stringify
      { sourcemap := .draft, indent := some "", inputSourcemaps := false }
      (some node)).value reader = .ok ⟨code, some map⟩ := ⟨_, rfl⟩
  have hshort : Text.units code.toList < 4294967295 := by decide
  exact ⟨map, h, readable_map_is_accurate rfl rfl rfl h hshort⟩

end StylePrint
