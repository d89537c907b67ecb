import StylePrint.Proofs.Printing.Mark
import StylePrint.Proofs.Printing.Outline
import StylePrint.Proofs.SourceMap.Order
/-!
Text between marks. The readable layout never puts two marks at one place: behind each mark it
writes at least one character before the next one, whatever texts a tree is made of
(`Layout.spaced_readable`). So as long as lines and columns stay below the greatest word, the places
of mappings ascend strictly (`Tracker.pairwise_along`), and there are fewer mappings than
characters.
-/

namespace StylePrint

open StylePrint.SourceMap StylePrint.Sheet

namespace Layout

/-! ### Spaced pieces -/

/-- The characters before the first mark. -/
def untilMark : List Piece → List Char
  | [] => []
  | .mark _ :: _ => []
  | .text content :: rest => content.toList ++ untilMark rest

/-- Whether something is written behind each mark, before the next one. -/
def Spaced : List Piece → Prop
  | [] => True
  | .mark _ :: rest => untilMark rest ≠ [] ∧ Spaced rest
  | .text _ :: rest => Spaced rest

theorem untilMark_append_ne_nil {ps : List Piece} (h : untilMark ps ≠ []) (qs : List Piece) :
    untilMark (ps ++ qs) ≠ [] := by
  induction ps with
  | nil => exact absurd rfl h
  | cons p ps ih =>
      cases p with
      | mark position => exact absurd rfl h
      | text content =>
          simp only [untilMark, List.cons_append, ne_eq, List.append_eq_nil_iff, not_and_or] at h ⊢
          rcases h with h | h
          · exact Or.inl h
          · exact Or.inr (ih h)

theorem Spaced.append {ps qs : List Piece} (h : Spaced ps) (g : Spaced qs) : Spaced (ps ++ qs) := by
  induction ps with
  | nil => exact g
  | cons p ps ih =>
      cases p with
      | mark position => exact ⟨untilMark_append_ne_nil h.1 qs, ih h.2⟩
      | text content => exact ih h

theorem Spaced.of_plain {ps : List Piece} (h : ∀ p ∈ ps, p.IsPlain) : Spaced ps := by
  induction ps with
  | nil => trivial
  | cons p ps ih =>
      have plain := h p (List.mem_cons_self ..)
      cases p with
      | mark position => exact plain.elim
      | text content => exact ih fun q hq => h q (List.mem_cons_of_mem _ hq)

theorem Spaced.mark {ps : List Piece} (position : Option Position) (hwritten : untilMark ps ≠ [])
    (h : Spaced ps) : Spaced (position.toList.map Piece.mark ++ ps) := by
  cases position with
  | none => exact h
  | some position => exact ⟨hwritten, h⟩

/-- Pieces that only write do not hide what is written behind them. -/
theorem untilMark_plain_append {ps qs : List Piece} (h : ∀ p ∈ ps, p.IsPlain)
    (hq : untilMark qs ≠ []) : untilMark (ps ++ qs) ≠ [] := by
  induction ps with
  | nil => exact hq
  | cons p ps ih =>
      have plain := h p (List.mem_cons_self ..)
      cases p with
      | mark position => exact plain.elim
      | text content =>
          simp only [untilMark, List.cons_append, ne_eq, List.append_eq_nil_iff, not_and_or]
          exact Or.inr (ih fun q hq => h q (List.mem_cons_of_mem _ hq))

/-! ### The readable layout -/

namespace Readable

theorem spaced_statement (unit : String) (level : Nat) (content : Statement)
    (position : Option Position) :
    Spaced (pieces unit level (steps (.statement content position))) := by
  cases content with
  | declaration property value =>
      have written : Spaced (position.toList.map Piece.mark
          ++ [.text (property ++ ": " ++ value), .text ";"]) :=
        Spaced.mark position (by simp [untilMark]) trivial
      simpa [steps, statement, Step.pieces, Step.levelAfter, Spaced] using written
  | comment text =>
      have written : Spaced (position.toList.map Piece.mark
          ++ [.text (marginAt unit level), .text ("/*" ++ text ++ "*/")]) :=
        Spaced.mark position (by simp [untilMark]) trivial
      simpa [steps, statement, Step.pieces, Step.levelAfter] using written
  | _ =>
      simp only [steps, statement, pieces_append, pieces_marks, levelAfter_marks, pieces_cons,
        pieces_nil, Step.pieces]
      exact Spaced.mark position (by simp [untilMark, atLine]) trivial

/-- The text that opens a block is not empty, whatever its header. -/
theorem frame_opening_ne_nil {head : Head} {frame : Frame} (h : frame? head = some frame) :
    frame.opening.toList ≠ [] := by
  cases head with
  | stylesheet source errors => cases h
  | _ =>
      obtain rfl := Option.some.inj h
      simp [ruleFrame, declarationFrame]

mutual

theorem spaced_steps (unit : String) {level : Nat} (hl : 1 ≤ level) :
    ∀ node : Node, Spaced (pieces unit level (steps node))
  | .statement content position => spaced_statement unit level content position
  | .block head children position => by
      cases hv : vanishes head children with
      | true =>
          rw [steps, if_pos hv]
          trivial
      | false =>
          cases hf : frame? head with
          | none =>
              simpa [steps, hv, hf] using spaced_separated unit hl "\n\n" children
          | some frame =>
              have plain := plain_frame hf
              have inner := spaced_separated unit (Nat.le_add_left 1 level) frame.separator children
              have around := inner.append
                (Spaced.of_plain (pieces_of_plain plain.closing unit level))
              have header := pieces_of_plain plain.header unit level
              have lead := Spaced.of_plain (pieces_of_plain plain.lead unit level)
              rw [pieces_block unit hl position hv hf]
              -- a header may be empty, but the text that opens the block is not
              refine lead.append (Spaced.mark position (untilMark_plain_append header ?_)
                ((Spaced.of_plain header).append around))
              simp only [untilMark, ne_eq, List.append_eq_nil_iff, not_and_or]
              exact Or.inl (frame_opening_ne_nil hf)

theorem spaced_separated (unit : String) {level : Nat} (hl : 1 ≤ level) (separator : String) :
    ∀ nodes : List Node, Spaced (pieces unit level (separated separator nodes))
  | [] => trivial
  | [node] => by
      rw [separated]
      exact spaced_steps unit hl node
  | node :: next :: rest => by
      have tail := spaced_separated unit hl separator (next :: rest)
      rw [pieces_separated_cons unit hl]
      exact (spaced_steps unit hl node).append tail

end

end Readable

/-- **No two marks of the readable layout share a place.** -/
theorem spaced_readable (unit : String) (node : Node) :
    Spaced (pieces unit 1 (Layout.readable.steps node)) :=
  Readable.spaced_steps unit (Nat.le_refl 1) node

end Layout

/-! ### The places of mappings -/

/-- A caret that stands before another stands at an earlier place. -/
theorem Caret.Before.place {a b : Caret} (h : a.Before b) (ha : 0 < a.column.toNat) :
    a.place.order b.place = .lt := by
  rw [Place.order_eq_lt]
  rcases h with h | ⟨hline, hcolumn⟩
  · exact Or.inl h
  · refine Or.inr ⟨hline, UInt32.lt_iff_toNat_lt.mpr ?_⟩
    have := UInt32.lt_iff_toNat_lt.mp hcolumn
    have := b.column.toNat_lt
    simp only [Caret.place, toNat_saturate]
    omega

/-- A beginning of a text takes at most the units of the text. -/
theorem units_mono {s t : List Char} (h : s <+: t) : Text.units s ≤ Text.units t := by
  obtain ⟨r, rfl⟩ := h
  rw [Text.units_append]
  exact Nat.le_add_right _ _

/-- A text that is not empty takes a unit. -/
theorem units_pos {s : List Char} (h : s ≠ []) : 0 < Text.units s := by
  cases s with
  | nil => exact absurd rfl h
  | cons c cs =>
      rw [Text.units_cons]
      exact Nat.add_pos_left (unitsOf_pos c) _

namespace Tracker

/-- The mappings along pieces stand where the characters before the first mark, and perhaps more,
have been written. -/
theorem mem_along {k : Caret} {ps : List Layout.Piece} {m : Mapping} (h : m ∈ along k ps) :
    ∃ before position, m = mappingAt (k.walk (Layout.untilMark ps ++ before)) position ∧
      Layout.untilMark ps ++ before <+: Layout.charsOf ps := by
  induction ps generalizing k with
  | nil => cases h
  | cons p ps ih =>
      cases p with
      | mark position =>
          rcases List.mem_cons.mp h with rfl | h
          · exact ⟨[], position, rfl, List.nil_prefix⟩
          · obtain ⟨before, position', hm, hbegins⟩ := ih h
            exact ⟨_, position', hm, hbegins⟩
      | text content =>
          obtain ⟨before, position, hm, hbegins⟩ := ih h
          refine ⟨before, position, ?_, ?_⟩
          · rw [hm, ← Caret.walk_append, ← List.append_assoc]
            rfl
          · rw [Layout.charsOf_cons, Layout.untilMark, List.append_assoc]
            exact (List.prefix_append_right_inj _).mpr hbegins

/-- **The mappings of spaced pieces stand at strictly ascending places**, while there is room. -/
theorem pairwise_along {k : Caret} {ps : List Layout.Piece} (h : Layout.Spaced ps)
    (hroom : k.HasRoom (Text.units (Layout.charsOf ps))) (hcolumn : 0 < k.column.toNat) :
    (along k ps).Pairwise fun a b => a.generated.order b.generated = .lt := by
  induction ps generalizing k with
  | nil => exact .nil
  | cons p ps ih =>
      cases p with
      | mark position =>
          refine .cons ?_ (ih h.2 hroom hcolumn)
          intro m hm
          obtain ⟨before, position', rfl, hbegins⟩ := mem_along hm
          have written : Layout.untilMark ps ++ before ≠ [] := by
            intro hnil
            exact h.1 (List.append_eq_nil_iff.mp hnil).1
          have later := Caret.before_walk written (hroom.mono (units_mono hbegins))
          exact later.place hcolumn
      | text content =>
          rw [Layout.charsOf_cons, Layout.chars_text, Text.units_append] at hroom
          exact ih h hroom.walk (Caret.column_pos_walk _ hcolumn)

/-- Each mark of spaced pieces has a unit of the text to itself, and so has what stands before the
first mark. -/
theorem length_along_le {k : Caret} {ps : List Layout.Piece} (h : Layout.Spaced ps) :
    (along k ps).length + Text.units (Layout.untilMark ps) ≤ Text.units (Layout.charsOf ps) := by
  induction ps generalizing k with
  | nil => exact Nat.le_refl 0
  | cons p ps ih =>
      cases p with
      | mark position =>
          have rest : (along k ps).length + Text.units (Layout.untilMark ps)
              ≤ Text.units (Layout.charsOf ps) := ih h.2
          have own := units_pos h.1
          show (along k ps).length + 1 + 0 ≤ Text.units (Layout.charsOf ps)
          omega
      | text content =>
          have rest : (along (k.walk content.toList) ps).length + Text.units (Layout.untilMark ps)
              ≤ Text.units (Layout.charsOf ps) := ih h
          rw [Layout.charsOf_cons, Layout.chars_text, Layout.untilMark, Text.units_append,
            Text.units_append, along]
          omega

end Tracker

end StylePrint
