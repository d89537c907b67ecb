import StylePrint.Proofs.Printing.Refusal
/-!
Text that is emitted in fragments. A printer sends its tracker past each fragment, and the tracker
ends where it ends when the whole text is emitted at once (`Tracker.foldl_advance`,
`Printer.tracker_emitAll`). A fragment with a position the tracker refuses leaves the tracker as it
was (`Printer.emit_refused`), so what was emitted before still counts.
-/

namespace StylePrint

open StylePrint.SourceMap StylePrint.Layout

namespace Tracker

/-- Going past one text and then another is going past both at once. -/
theorem advance_append (t : Tracker) (first second : String) :
    t.advance (first ++ second) = (t.advance first).advance second := by
  rw [advance_eq_walk t, advance_eq_walk (t.advance first), caret_advance, String.toList_append,
    Caret.walk_append]
  rfl

theorem advance_empty (t : Tracker) : t.advance "" = t := by
  rw [advance_eq_walk]
  rfl

/-- Going past fragments one by one is going past the text they form. -/
theorem foldl_advance (t : Tracker) (fragments : List String) :
    fragments.foldl advance t = t.advance (String.join fragments) := by
  induction fragments generalizing t with
  | nil => exact (advance_empty t).symm
  | cons fragment rest ih =>
      rw [List.foldl_cons, ih, ← advance_append, String.join_cons]

end Tracker

namespace Printer

variable (p : Printer) (t : Tracker) (text : String)

/-- A text without a position always goes through, and the tracker goes past it. -/
theorem emit_plain :
    (p.attach t).emit text none
      = ({ p with written := "", tracker := some (t.advance text) }, .ok text) := by
  simp [emit, textOf, run, perform, write, attach, marks]

/-- A text with a position that the tracker takes is marked, and the tracker goes past it. -/
theorem emit_accepted {position : Sheet.Position} (haccepted : ¬position.Refused)
    (hline : t.line ≠ 0) :
    (p.attach t).emit text (some position)
      = ({ p with written := "", tracker := some ((t.marked position).advance text) },
          .ok text) := by
  have hmark : t.mark position = .ok (t.marked position) := by
    rw [Tracker.mark_eq hline, if_neg haccepted]
  simp [emit, textOf, run, perform, write, attach, marks, hmark, Except.map]

/-- A text with a position that the tracker refuses leaves the tracker as it was. -/
theorem emit_refused {position : Sheet.Position} (hrefused : position.Refused)
    (hline : t.line ≠ 0) :
    (p.attach t).emit text (some position)
      = ({ p with written := "", tracker := some t },
          .error (position.refusal t.caret.place)) := by
  have hmark : t.mark position = .error (position.refusal t.caret.place) := by
    rw [Tracker.mark_eq hline, if_pos hrefused]
  simp [emit, textOf, run, perform, attach, marks, hmark, Except.map]

/-- Emits fragments one after another, without positions. -/
def emitAll (p : Printer) (fragments : List String) : Printer :=
  fragments.foldl (fun p fragment => (p.emit fragment none).1) p

/-- Fragments that are emitted one after another send the tracker past the text they form. -/
theorem tracker_emitAll (fragments : List String) :
    ((p.attach t).emitAll fragments).tracker = some (fragments.foldl Tracker.advance t) := by
  induction fragments generalizing p t with
  | nil => rfl
  | cons fragment rest ih =>
      show ((((p.attach t).emit fragment none).1).emitAll rest).tracker = _
      rw [emit_plain]
      exact ih { p with written := "" } (t.advance fragment)

/-- **How a text is cut into fragments does not show.** Two texts that are emitted one after the
other leave the tracker that emitting both at once leaves. Any number of fragments moves its line
and column on as walking the text they form does, and changes nothing else. A text is refused
exactly when its position is one that no text has, and the tracker is then left as it was. -/
theorem fragments_do_not_show (p : Printer) {t : Tracker} (hline : t.line ≠ 0) :
    (∀ first second : String,
      (((p.attach t).emit first none).1.emit second none).1.tracker
        = ((p.attach t).emit (first ++ second) none).1.tracker) ∧
    (∀ fragments : List String,
      ((p.attach t).emitAll fragments).tracker = some { t with
        line := (t.caret.walk (String.join fragments).toList).line
        column := (t.caret.walk (String.join fragments).toList).column }) ∧
    ∀ (text : String) (position : Option Sheet.Position),
      ((∃ fault, ((p.attach t).emit text position).2 = .error fault)
        ↔ ∃ refused, position = some refused ∧ refused.Refused) ∧
      ∀ fault, ((p.attach t).emit text position).2 = .error fault →
        ((p.attach t).emit text position).1.tracker = some t := by
  have hjoined (fragments : List String) :
      ((p.attach t).emitAll fragments).tracker = some (t.advance (String.join fragments)) := by
    rw [tracker_emitAll, Tracker.foldl_advance]
  refine ⟨?_, ?_, ?_⟩
  · intro first second
    have htwo := hjoined [first, second]
    have hone := hjoined [first ++ second]
    rw [String.join_cons, String.join_cons, ← String.append_assoc, ← String.join_cons] at htwo
    exact htwo.trans hone.symm
  · intro fragments
    rw [hjoined, Tracker.advance_eq_walk]
  · intro text position
    cases position with
    | none =>
        rw [emit_plain]
        exact ⟨⟨nofun, nofun⟩, nofun⟩
    | some position =>
        by_cases hrefused : position.Refused
        · rw [emit_refused p t text hrefused hline]
          exact ⟨⟨fun _ => ⟨position, rfl, hrefused⟩, fun _ => ⟨_, rfl⟩⟩, fun _ _ => rfl⟩
        · rw [emit_accepted p t text hrefused hline]
          refine ⟨⟨nofun, ?_⟩, nofun⟩
          rintro ⟨_, ⟨⟩, h⟩
          exact absurd h hrefused

/-- Near the greatest word, with a line break on either side of the cut and a character of two units
at both ends; and then a text with a position in column zero. -/
theorem fragments_do_not_show_at_greatest :
    let t : Tracker := { line := 4294967294, column := 4294967294 }
    let p := (start {}).attach t
    let outside : Sheet.Position := { start := ⟨1, 0⟩, content := some "a" }
    t.line ≠ 0 ∧
      (p.emit "😀\n" none).1.tracker = some { line := 4294967295, column := 1 } ∧
      ((p.emit "😀\n" none).1.emit "\n😀" none).1.tracker = (p.emit "😀\n\n😀" none).1.tracker ∧
      (p.emit "😀\n\n😀" none).1.tracker = some { line := 4294967295, column := 3 } ∧
      (p.emit "a" (some outside)).2 = .error (.sourceColumnZero 1 0) ∧
      (p.emit "a" (some outside)).1.tracker = some t := by
  intro t p outside
  have hline : t.line ≠ 0 := by decide
  have hrefused : (p.emit "a" (some outside)).2 = .error (.sourceColumnZero 1 0) := by
    rw [emit_refused (start {}) t "a" (.inr rfl) hline]
    rfl
  obtain ⟨htwo, -, hfail⟩ := fragments_do_not_show (start {}) hline
  exact ⟨hline, by decide +kernel, htwo "😀\n" "\n😀", by decide +kernel, hrefused,
    (hfail "a" (some outside)).2 _ hrefused⟩

end Printer

end StylePrint
