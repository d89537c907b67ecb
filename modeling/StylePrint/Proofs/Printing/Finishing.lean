import StylePrint.Proofs.Printing.Mark
import StylePrint.Proofs.SourceMap.Contents
/-!
From a new tracker to a finished draft. What a tracker does to its draft are calls that any caller
can make, so the draft stays reachable (`Tracker.reachable_follow`). Where the maps of the sources
are not followed, applying them attaches the contents of the files and does nothing else
(`Tracker.applyMaps_unfollowed`).
-/

namespace StylePrint

open StylePrint.SourceMap StylePrint.Layout

namespace Tracker

/-! ### Following pieces -/

theorem pos_of_ne_zero {w : UInt32} (h : w ≠ 0) : 0 < w.toNat :=
  Nat.pos_of_ne_zero fun h0 => h (UInt32.toNat_inj.mp h0)

/-- The draft of a tracker that follows pieces stays reachable. -/
theorem reachable_follow {file root : Option String} {t t' : Tracker} {ps : List Piece}
    (h : t.follow ps = .ok t') (hdraft : t.draft.Reachable file root) :
    t'.draft.Reachable file root := by
  refine follow_keeps (P := fun t => t.draft.Reachable file root) ?_ ?_ h hdraft
  · intro t content ht
    exact ht
  · intro t position hstart hline ht
    refine ht.next (Draft.Step.record ⟨pos_of_ne_zero hline, ?_⟩ t.draft)
    rintro origin ⟨⟩
    exact pos_of_ne_zero hstart

/-- Following pieces changes nothing about the maps of the sources. -/
theorem flags_follow {t t' : Tracker} {ps : List Piece} (h : t.follow ps = .ok t') :
    t'.inputSourcemaps = t.inputSourcemaps ∧ t'.applied = t.applied := by
  refine follow_keeps (P := fun t' =>
    t'.inputSourcemaps = t.inputSourcemaps ∧ t'.applied = t.applied) ?_ ?_ h ⟨rfl, rfl⟩
  · intro t content ht
    exact ht
  · intro t position _ _ ht
    exact ht

/-! ### Applying the maps of the sources -/

/-- Without following any map, applying files attaches their contents. -/
theorem applyFiles_unfollowed (files : List (String × String)) (draft : Draft) :
    applyFiles false files draft = pure (draft.attach files, none) := by
  induction files generalizing draft with
  | nil => rfl
  | cons file rest ih => exact ih (draft.setContent file.1 (some file.2))

/-- Where the maps of the sources are not followed, applying them succeeds, asks for no file and
attaches the contents of the files. -/
theorem applyMaps_unfollowed {t : Tracker} (hinput : t.inputSourcemaps = false)
    (happlied : t.applied = false) :
    t.applyMaps
      = pure ({ t with draft := t.draft.attach t.files, applied := true }, none) := by
  unfold applyMaps
  rw [happlied, hinput, applyFiles_unfollowed]
  rfl

end Tracker

end StylePrint
