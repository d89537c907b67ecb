import StylePrint.Layout.Basic
import StylePrint.Proofs.Printing.Piece
/-!
The pieces of each layout, block by block. Both layouts leave a node at the level they entered it
at (`Readable.levelAfter_steps`, `Compact.levelAfter_steps`), so the pieces of a block are those
around its children and, between them, those of its children one level further in
(`Readable.pieces_block`, `Compact.pieces_block`).
-/

namespace StylePrint.Layout

open StylePrint.Sheet

/-! ### Plain steps -/

/-- Whether a step only writes. -/
def Step.IsPlain : Step → Prop
  | .text _ | .margin => True
  | .mark _ | .nest | .unnest => False

/-- Whether a piece only writes. -/
def Piece.IsPlain : Piece → Prop
  | .text _ => True
  | .mark _ => False

/-- Steps that only write do not move between levels. -/
theorem levelAfter_of_plain {steps : List Step} (h : ∀ s ∈ steps, s.IsPlain) (level : Nat) :
    levelAfter level steps = level := by
  induction steps with
  | nil => rfl
  | cons step rest ih =>
      have first : step.levelAfter level = level := by
        have plain := h step (by simp)
        cases step <;> simp_all [Step.IsPlain, Step.levelAfter]
      rw [levelAfter_cons, first]
      exact ih fun s hs => h s (by simp [hs])

/-- The pieces of steps that only write are no marks. -/
theorem pieces_of_plain {steps : List Step} (h : ∀ s ∈ steps, s.IsPlain) (unit : String)
    (level : Nat) : ∀ p ∈ pieces unit level steps, p.IsPlain := by
  induction steps generalizing level with
  | nil => simp
  | cons step rest ih =>
      intro p hp
      rw [pieces_cons, List.mem_append] at hp
      rcases hp with hp | hp
      · have plain := h step (by simp)
        cases step <;> simp_all [Step.IsPlain, Step.pieces, Piece.IsPlain]
      · exact ih (fun s hs => h s (by simp [hs])) _ p hp

/-- Pieces that only write announce nothing. -/
theorem announced_of_plain {ps : List Piece} (h : ∀ p ∈ ps, p.IsPlain) : announced ps = [] := by
  induction ps with
  | nil => rfl
  | cons p ps ih =>
      have plain := h p (by simp)
      cases p with
      | mark position => simp [Piece.IsPlain] at plain
      | text content => exact ih fun q hq => h q (by simp [hq])

/-- The mark of a position does not move between levels. -/
@[simp] theorem levelAfter_marks (level : Nat) (position : Option Position) :
    levelAfter level (marks position) = level := by
  cases position <;> rfl

@[simp] theorem pieces_marks (unit : String) (level : Nat) (position : Option Position) :
    pieces unit level (marks position) = position.toList.map Piece.mark := by
  cases position <;> rfl

@[simp] theorem charsOf_marks (position : Option Position) :
    charsOf (position.toList.map Piece.mark) = [] := by
  cases position <;> rfl

/-- The blocks that print nothing. -/
theorem vanishes_iff {head : Head} {children : List Node} :
    vanishes head children = true ↔ ∃ selectors, head = .rule selectors ∧ children = [] := by
  cases head <;> simp [vanishes]

/-! ### The compact layout -/

namespace Compact

/-- A stylesheet is the one block without a header. -/
theorem header?_eq_none_iff {head : Head} :
    header? head = none ↔ ∃ source errors, head = .stylesheet source errors := by
  cases head <;> simp [header?]

theorem plain_statementText (content : Statement) : ∀ s ∈ statementText content, s.IsPlain := by
  cases content <;> simp [statementText, Step.IsPlain]

mutual

/-- No step of the compact layout moves between levels. -/
theorem levelAfter_steps (level : Nat) : ∀ node : Node, levelAfter level (steps node) = level
  | .statement content position => by
      rw [steps, levelAfter_append, levelAfter_marks]
      exact levelAfter_of_plain (plain_statementText content) level
  | .block head children position => by
      rw [steps]
      split
      · rfl
      · split
        · exact levelAfter_all level children
        · simp [Step.levelAfter, levelAfter_all level children]

theorem levelAfter_all (level : Nat) : ∀ nodes : List Node, levelAfter level (all nodes) = level
  | [] => rfl
  | node :: rest => by
      rw [all, levelAfter_append, levelAfter_steps level node]
      exact levelAfter_all level rest

end

/-- The pieces of a statement: its mark, and its text. -/
theorem pieces_statement (unit : String) (level : Nat) (content : Statement)
    (position : Option Position) :
    pieces unit level (steps (.statement content position))
      = position.toList.map Piece.mark ++ pieces unit level (statementText content) := by
  rw [steps, pieces_append, pieces_marks, levelAfter_marks]

/-- The pieces of a block with a header. -/
theorem pieces_block (unit : String) (level : Nat) {head : Head} {children : List Node}
    {header : String} (position : Option Position) (hv : vanishes head children = false)
    (hh : header? head = some header) :
    pieces unit level (steps (.block head children position))
      = position.toList.map Piece.mark ++ (.text header :: .text "\x7b"
          :: (pieces unit level (all children) ++ [.text "\x7d"])) := by
  simp [steps, hv, hh, Step.pieces, Step.levelAfter, levelAfter_all]

/-- The pieces of nodes, one after another. -/
theorem pieces_all_cons (unit : String) (level : Nat) (node : Node) (rest : List Node) :
    pieces unit level (all (node :: rest))
      = pieces unit level (steps node) ++ pieces unit level (all rest) := by
  rw [all, pieces_append, levelAfter_steps]

end Compact

/-! ### The readable layout -/

namespace Readable

/-- A stylesheet is the one block without a frame. -/
theorem frame?_eq_none_iff {head : Head} :
    frame? head = none ↔ ∃ source errors, head = .stylesheet source errors := by
  cases head <;> simp [frame?]

/-- Whether the parts of a frame only write. -/
structure Frame.IsPlain (frame : Frame) : Prop where
  lead : ∀ s ∈ frame.lead, s.IsPlain
  header : ∀ s ∈ frame.header, s.IsPlain
  closing : ∀ s ∈ frame.closing, s.IsPlain

theorem plain_selectorLines (selectors : List String) :
    ∀ s ∈ selectorLines selectors, s.IsPlain := by
  unfold selectorLines
  induction selectors with
  | nil => simp
  | cons selector rest ih =>
      cases rest with
      | nil => simp [Step.IsPlain]
      | cons next more =>
          simp only [List.map_cons, List.intercalate_cons_cons] at ih ⊢
          intro s hs
          simp only [List.mem_append] at hs
          rcases hs with (hs | hs) | hs
          · simp only [List.mem_cons, List.not_mem_nil, or_false] at hs
            rcases hs with rfl | rfl <;> trivial
          · obtain rfl : s = .text ",\n" := by simpa using hs
            trivial
          · exact ih s hs

theorem plain_frame {head : Head} {frame : Frame} (h : frame? head = some frame) :
    frame.IsPlain := by
  cases head with
  | stylesheet source errors => simp [frame?] at h
  | rule selectors =>
      obtain rfl := Option.some.inj h
      exact ⟨by simp, plain_selectorLines selectors, by simp [Step.IsPlain]⟩
  | _ =>
      obtain rfl := Option.some.inj h
      constructor <;> simp [ruleFrame, declarationFrame, Step.IsPlain]

mutual

/-- A node is left at the level it is entered at. -/
theorem levelAfter_steps {level : Nat} (hl : 1 ≤ level) :
    ∀ node : Node, levelAfter level (steps node) = level
  | .statement content position => by
      cases content <;> simp [steps, statement, Step.levelAfter]
  | .block head children position => by
      rw [steps]
      split
      · rfl
      · split
        · exact levelAfter_separated hl "\n\n" children
        · rename_i frame hf
          have plain := plain_frame hf
          have inner := levelAfter_separated (Nat.le_add_left 1 level) frame.separator children
          have out : max (level + 1 - 1) 1 = level := by omega
          simp only [levelAfter_append, levelAfter_marks, levelAfter_of_plain plain.lead,
            levelAfter_of_plain plain.header, levelAfter_cons, levelAfter_nil, Step.levelAfter,
            inner, out, levelAfter_of_plain plain.closing]

theorem levelAfter_separated {level : Nat} (hl : 1 ≤ level) (separator : String) :
    ∀ nodes : List Node, levelAfter level (separated separator nodes) = level
  | [] => rfl
  | [node] => by
      rw [separated]
      exact levelAfter_steps hl node
  | node :: next :: rest => by
      rw [separated, levelAfter_append, levelAfter_steps hl node]
      exact levelAfter_separated hl separator (next :: rest)

end

/-- The pieces of a block with a frame: the children stand one level further in. -/
theorem pieces_block (unit : String) {level : Nat} (hl : 1 ≤ level) {head : Head}
    {children : List Node} {frame : Frame} (position : Option Position)
    (hv : vanishes head children = false) (hf : frame? head = some frame) :
    pieces unit level (steps (.block head children position))
      = pieces unit level frame.lead ++ (position.toList.map Piece.mark
          ++ (pieces unit level frame.header ++ (.text frame.opening
            :: (pieces unit (level + 1) (separated frame.separator children)
              ++ pieces unit level frame.closing)))) := by
  have plain := plain_frame hf
  have inner := levelAfter_separated (Nat.le_add_left 1 level) frame.separator children
  have out : max (level + 1 - 1) 1 = level := by omega
  simp only [steps, hv, hf, Bool.false_eq_true, if_false, pieces_append, pieces_marks, pieces_cons,
    levelAfter_marks, Step.pieces, Step.levelAfter, levelAfter_of_plain plain.lead,
    levelAfter_of_plain plain.header, inner, out, List.append_assoc, List.cons_append,
    List.nil_append]

/-- The pieces of nodes with a text between them. -/
theorem pieces_separated_cons (unit : String) {level : Nat} (hl : 1 ≤ level) (separator : String)
    (node next : Node) (rest : List Node) :
    pieces unit level (separated separator (node :: next :: rest))
      = pieces unit level (steps node)
          ++ (.text separator :: pieces unit level (separated separator (next :: rest))) := by
  rw [separated, pieces_append, levelAfter_steps hl]
  rfl

end Readable

end StylePrint.Layout
