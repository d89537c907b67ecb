import Mathlib.Data.List.Forall2
import StylePrint.Proofs.Printing.Piece
/-!
What a tracker records along pieces. Each mark adds one mapping, from the place reached to the
start of the marked position (`Tracker.mark_eq_ok`), and texts add none. So the mappings recorded
are those of the marks in order, each at the place that walking the characters before it reaches
(`Tracker.mappings_follow`, `Tracker.along_announced`).
-/

namespace StylePrint

open StylePrint.SourceMap StylePrint.Layout

namespace Tracker

/-! ### One mark -/

/-- The origin that a mark gives a place: the start of the marked position, with its column counted
from zero. -/
def originOf (position : Sheet.Position) : Origin :=
  ⟨sourceOf position, ⟨position.start.line, position.start.column - 1⟩, none⟩

/-- The mapping that a mark at a caret records. -/
def mappingAt (k : Caret) (position : Sheet.Position) : Mapping :=
  ⟨k.place, some (originOf position)⟩

/-- The tracker behind a mark that it takes. -/
def marked (t : Tracker) (position : Sheet.Position) : Tracker :=
  { t with
    draft := t.draft.record (mappingAt t.caret position)
    files := remember t.files (sourceOf position) position.content }

/-- A mark is taken exactly when its line and column and the line reached are not zero, and it then
records its mapping. -/
theorem mark_eq_ok {t t' : Tracker} {position : Sheet.Position} :
    t.mark position = .ok t' ↔
      (position.start.column ≠ 0 ∧ position.start.line ≠ 0 ∧ t.line ≠ 0) ∧
        t' = t.marked position := by
  by_cases hc : position.start.column = 0
  · simp [mark, hc]
  · by_cases hg : t.line = 0
    · simp [mark, Draft.add, Proposal.check, Except.map, bind, Except.bind, hc, hg]
    · by_cases hl : position.start.line = 0
      · simp [mark, Draft.add, Proposal.check, Except.map, bind, Except.bind, hc, hg, hl]
      · have taken : t.mark position = .ok (t.marked position) := by
          simp only [mark, Draft.add, Proposal.check, hc, hg, hl, if_false]
          rfl
        rw [taken]
        constructor
        · intro h
          exact ⟨⟨hc, hl, hg⟩, (Except.ok.inj h).symm⟩
        · rintro ⟨-, rfl⟩
          rfl

@[simp] theorem caret_marked (t : Tracker) (position : Sheet.Position) :
    (t.marked position).caret = t.caret := rfl

@[simp] theorem mappings_marked (t : Tracker) (position : Sheet.Position) :
    (t.marked position).draft.mappings = t.draft.mappings.push (mappingAt t.caret position) := rfl

/-- What texts and marks that are taken preserve, following pieces to the end preserves. -/
theorem follow_keeps {P : Tracker → Prop} (htext : ∀ t content, P t → P (t.advance content))
    (hmark : ∀ t position, position.start.line ≠ 0 → t.line ≠ 0 → P t → P (t.marked position))
    {t t' : Tracker} {ps : List Piece} (h : t.follow ps = .ok t') (ht : P t) : P t' := by
  induction ps generalizing t with
  | nil =>
      obtain rfl : t = t' := Except.ok.inj h
      exact ht
  | cons p ps ih =>
      cases p with
      | mark position =>
          rw [follow] at h
          split at h
          · rename_i next hm
            obtain ⟨⟨-, hstart, hline⟩, rfl⟩ := mark_eq_ok.mp hm
            exact ih h (hmark t position hstart hline ht)
          · cases h
      | text content =>
          rw [follow] at h
          exact ih h (htext t content ht)

/-! ### Along pieces -/

/-- The mappings of the marks among pieces that are written from a caret on. -/
def along (k : Caret) : List Piece → List Mapping
  | [] => []
  | .mark position :: rest => mappingAt k position :: along k rest
  | .text content :: rest => along (k.walk content.toList) rest

/-- A tracker that follows pieces to the end reaches the place that walking their characters
reaches. -/
theorem caret_follow {t t' : Tracker} {ps : List Piece} (h : t.follow ps = .ok t') :
    t'.caret = t.caret.walk (charsOf ps) := by
  induction ps generalizing t with
  | nil =>
      obtain rfl : t = t' := by simpa [follow] using h
      rfl
  | cons p ps ih =>
      cases p with
      | mark position =>
          rw [follow] at h
          split at h
          · rename_i next hm
            obtain ⟨-, rfl⟩ := mark_eq_ok.mp hm
            rw [ih h]
            rfl
          · simp at h
      | text content =>
          rw [follow] at h
          rw [ih h, caret_advance, charsOf_cons, chars_text, Caret.walk_append]

/-- A tracker that follows pieces to the end records the mappings of their marks, in order. -/
theorem mappings_follow {t t' : Tracker} {ps : List Piece} (h : t.follow ps = .ok t') :
    t'.draft.mappings.toList = t.draft.mappings.toList ++ along t.caret ps := by
  induction ps generalizing t with
  | nil =>
      obtain rfl : t = t' := by simpa [follow] using h
      simp [along]
  | cons p ps ih =>
      cases p with
      | mark position =>
          rw [follow] at h
          split at h
          · rename_i next hm
            obtain ⟨-, rfl⟩ := mark_eq_ok.mp hm
            rw [ih h]
            simp [along]
          · simp at h
      | text content =>
          rw [follow] at h
          rw [ih h]
          simp [along]

/-- Each mark's mapping stands where walking the characters before the mark ends. -/
theorem along_announced (k : Caret) (ps : List Piece) :
    List.Forall₂ (fun mapping entry => ∃ before,
        charsOf ps = before ++ entry.2 ∧ mapping = mappingAt (k.walk before) entry.1)
      (along k ps) (announced ps) := by
  induction ps generalizing k with
  | nil => exact .nil
  | cons p ps ih =>
      cases p with
      | mark position =>
          refine .cons ⟨[], rfl, rfl⟩ ((ih k).imp ?_)
          rintro mapping entry ⟨before, hsplit, rfl⟩
          exact ⟨before, by simpa using hsplit, rfl⟩
      | text content =>
          refine (ih (k.walk content.toList)).imp ?_
          rintro mapping entry ⟨before, hsplit, rfl⟩
          exact ⟨content.toList ++ before, by simp [hsplit], by simp⟩

end Tracker

end StylePrint
