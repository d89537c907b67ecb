import StylePrint.Printer
import StylePrint.Proofs.Caret
/-!
Pieces: the steps of a layout once their margins are spelled out, so that the level of nesting is
gone and only marks and texts are left. A printer that runs steps writes the texts of their pieces
and sends its tracker along the pieces (`Printer.run_untracked`, `Printer.run_tracked`); what it
does depends on nothing else.
-/

namespace StylePrint

open StylePrint.SourceMap StylePrint.Layout

namespace Layout

/-! ### Spelling steps out -/

/-- A mark or a text. -/
inductive Piece where
  | mark (position : Sheet.Position)
  | text (content : String)
  deriving DecidableEq, Repr

/-- The characters that a piece writes. -/
def Piece.chars : Piece → List Char
  | .mark _ => []
  | .text content => content.toList

/-- The characters that pieces write. -/
def charsOf (ps : List Piece) : List Char :=
  ps.flatMap Piece.chars

@[simp] theorem charsOf_nil : charsOf [] = [] := rfl

@[simp] theorem charsOf_cons (p : Piece) (ps : List Piece) :
    charsOf (p :: ps) = p.chars ++ charsOf ps := rfl

@[simp] theorem charsOf_append (ps qs : List Piece) :
    charsOf (ps ++ qs) = charsOf ps ++ charsOf qs :=
  List.flatMap_append

@[simp] theorem chars_mark (position : Sheet.Position) : (Piece.mark position).chars = [] := rfl

@[simp] theorem chars_text (content : String) : (Piece.text content).chars = content.toList := rfl

/-- The margin of a level. -/
def marginAt (unit : String) (level : Nat) : String :=
  String.join (List.replicate (level - 1) unit)

/-- The level behind a step. -/
def Step.levelAfter (level : Nat) : Step → Nat
  | .nest => level + 1
  | .unnest => max (level - 1) 1
  | .mark _ | .text _ | .margin => level

/-- The level behind steps. -/
def levelAfter (level : Nat) (steps : List Step) : Nat :=
  steps.foldl Step.levelAfter level

/-- What a step contributes at a level. -/
def Step.pieces (unit : String) (level : Nat) : Step → List Piece
  | .mark position => [.mark position]
  | .text content => [.text content]
  | .margin => [.text (marginAt unit level)]
  | .nest | .unnest => []

/-- The pieces of steps that begin at a level. -/
def pieces (unit : String) (level : Nat) : List Step → List Piece
  | [] => []
  | step :: rest => step.pieces unit level ++ pieces unit (step.levelAfter level) rest

@[simp] theorem levelAfter_nil (level : Nat) : levelAfter level [] = level := rfl

@[simp] theorem levelAfter_cons (level : Nat) (step : Step) (rest : List Step) :
    levelAfter level (step :: rest) = levelAfter (step.levelAfter level) rest := rfl

@[simp] theorem levelAfter_append (level : Nat) (s t : List Step) :
    levelAfter level (s ++ t) = levelAfter (levelAfter level s) t :=
  List.foldl_append

@[simp] theorem pieces_nil (unit : String) (level : Nat) : pieces unit level [] = [] := rfl

@[simp] theorem pieces_cons (unit : String) (level : Nat) (step : Step) (rest : List Step) :
    pieces unit level (step :: rest)
      = step.pieces unit level ++ pieces unit (step.levelAfter level) rest := rfl

@[simp] theorem pieces_append (unit : String) (level : Nat) (s t : List Step) :
    pieces unit level (s ++ t) = pieces unit level s ++ pieces unit (levelAfter level s) t := by
  induction s generalizing level with
  | nil => rfl
  | cons step rest ih => simp [ih, List.append_assoc]

/-! ### Marks among pieces -/

/-- The marks among pieces, each with the characters written from it on. -/
def announced : List Piece → List (Sheet.Position × List Char)
  | [] => []
  | .mark position :: rest => (position, charsOf rest) :: announced rest
  | .text _ :: rest => announced rest

/-- What is written behind pieces follows each of their marks. -/
theorem announced_append (ps qs : List Piece) :
    announced (ps ++ qs)
      = (announced ps).map (fun entry => (entry.1, entry.2 ++ charsOf qs)) ++ announced qs := by
  induction ps with
  | nil => rfl
  | cons p ps ih =>
      cases p with
      | mark position => simp [announced, ih]
      | text content => simpa [announced] using ih

end Layout

/-! ### Trackers along pieces -/

namespace Tracker

/-- Sends a tracker along pieces, up to the first mark it refuses. -/
def follow (t : Tracker) : List Piece → Except MappingFault Tracker
  | [] => .ok t
  | .mark position :: rest =>
      match t.mark position with
      | .ok t => t.follow rest
      | .error fault => .error fault
  | .text content :: rest => (t.advance content).follow rest

end Tracker

/-! ### Printers along pieces -/

namespace Printer

variable {p : Printer}

/-- The printer behind steps that all succeeded. -/
def behind (p : Printer) (steps : List Step) (tracker : Option Tracker) : Printer where
  unit := p.unit
  level := levelAfter p.level steps
  written := p.written ++ String.ofList (charsOf (pieces p.unit p.level steps))
  tracker := tracker

@[simp] theorem behind_nil : p.behind [] p.tracker = p := by
  simp [behind]

/-- A step that succeeds leaves the printer behind it. -/
theorem behind_behind (p : Printer) (step : Step) (rest : List Step) (t t' : Option Tracker) :
    (p.behind [step] t).behind rest t' = p.behind (step :: rest) t' := by
  simp [behind, String.append_assoc]

/-- Without a tracker every step succeeds. -/
theorem perform_untracked (h : p.tracker = none) (step : Step) :
    p.perform step = .ok (p.behind [step] none) := by
  obtain ⟨unit, level, text, tracker⟩ := p
  obtain rfl : tracker = none := h
  cases step <;>
    simp [-String.toList_join, perform, behind, write, Step.pieces, Step.levelAfter,
      Printer.margin, marginAt]

/-- Without a tracker steps write the texts of their pieces. -/
theorem run_untracked (h : p.tracker = none) (steps : List Step) :
    p.run steps = (p.behind steps none, none) := by
  induction steps generalizing p with
  | nil => simp [run, ← h]
  | cons step rest ih =>
      rw [run, perform_untracked h]
      show (p.behind [step] none).run rest = _
      rw [ih rfl, behind_behind]

/-- With a tracker a step succeeds exactly when the tracker can follow its pieces. -/
theorem perform_tracked {t : Tracker} (h : p.tracker = some t) (step : Step) :
    p.perform step
      = (t.follow (step.pieces p.unit p.level)).map fun t => p.behind [step] (some t) := by
  obtain ⟨unit, level, text, tracker⟩ := p
  obtain rfl : tracker = some t := h
  cases step with
  | mark position =>
      cases hm : t.mark position <;>
        simp [perform, hm, Except.map, Tracker.follow, behind, Step.pieces, Step.levelAfter]
  | text content =>
      simp [perform, behind, write, Step.pieces, Step.levelAfter, Tracker.follow, Except.map]
  | margin =>
      simp [-String.toList_join, perform, behind, write, Step.pieces, Step.levelAfter,
        Tracker.follow, Except.map, Printer.margin, marginAt]
  | nest => simp [perform, behind, Step.pieces, Step.levelAfter, Tracker.follow, Except.map]
  | unnest => simp [perform, behind, Step.pieces, Step.levelAfter, Tracker.follow, Except.map]

end Printer

namespace Tracker

/-- A tracker follows pieces one after another. -/
theorem follow_append (t : Tracker) (ps qs : List Piece) :
    t.follow (ps ++ qs) = (t.follow ps).bind fun t => t.follow qs := by
  induction ps generalizing t with
  | nil => rfl
  | cons p ps ih =>
      cases p with
      | mark position =>
          simp only [List.cons_append, follow]
          cases t.mark position with
          | ok t' => exact ih t'
          | error fault => rfl
      | text content => exact ih _

end Tracker

namespace Printer

variable {p : Printer} {t : Tracker}

/-- Steps whose pieces the tracker follows to the end succeed, and write the texts of the
pieces. -/
theorem run_tracked {t' : Tracker} {steps : List Step} (h : p.tracker = some t)
    (hfollow : t.follow (pieces p.unit p.level steps) = .ok t') :
    p.run steps = (p.behind steps (some t'), none) := by
  induction steps generalizing p t with
  | nil =>
      obtain rfl : t = t' := by simpa [Tracker.follow] using hfollow
      simp [run, ← h]
  | cons step rest ih =>
      rw [pieces_cons, Tracker.follow_append] at hfollow
      rw [run, perform_tracked h]
      cases hs : t.follow (step.pieces p.unit p.level) with
      | error fault => simp [hs, Except.bind] at hfollow
      | ok next =>
          rw [hs] at hfollow
          show (p.behind [step] (some next)).run rest = _
          rw [ih (p := p.behind [step] (some next)) rfl hfollow, behind_behind]

/-- Steps whose pieces the tracker refuses fail as the tracker does, and leave a tracker and the
unit of indentation in place. -/
theorem run_refused {fault : MappingFault} {steps : List Step} (h : p.tracker = some t)
    (hfollow : t.follow (pieces p.unit p.level steps) = .error fault) :
    (p.run steps).2 = some fault ∧ (p.run steps).1.tracker.isSome ∧
      (p.run steps).1.unit = p.unit := by
  induction steps generalizing p t with
  | nil => simp [Tracker.follow] at hfollow
  | cons step rest ih =>
      rw [pieces_cons, Tracker.follow_append] at hfollow
      rw [run, perform_tracked h]
      cases hs : t.follow (step.pieces p.unit p.level) with
      | error fault' =>
          obtain rfl : fault' = fault := by simpa [hs, Except.bind] using hfollow
          exact ⟨rfl, by simp [Except.map, h], rfl⟩
      | ok next =>
          rw [hs] at hfollow
          exact ih (p := p.behind [step] (some next)) rfl hfollow

/-! ### Printing a node -/

variable (p) (t) (layout : Layout) (node : Sheet.Node)

/-- Without a tracker a node is always printed, and its text is that of its pieces. -/
theorem print_untracked (h : p.tracker = none) :
    p.print layout node
      = ({ p with level := levelAfter 1 (layout.steps node), written := "", tracker := none },
          .ok (String.ofList (charsOf (pieces p.unit 1 (layout.steps node))))) := by
  have run := run_untracked (p := { p with level := 1, written := "" }) h (layout.steps node)
  rw [print, textOf, run]
  simp [behind]

/-- With a tracker that follows its pieces to the end a node is printed with the same text. -/
theorem print_tracked {t' : Tracker}
    (h : t.follow (pieces p.unit 1 (layout.steps node)) = .ok t') :
    (p.attach t).print layout node
      = ({ p with level := levelAfter 1 (layout.steps node), written := "", tracker := some t' },
          .ok (String.ofList (charsOf (pieces p.unit 1 (layout.steps node))))) := by
  have run := run_tracked (p := { p with level := 1, written := "", tracker := some t }) rfl h
  rw [print, textOf]
  simp only [attach, run]
  simp [behind]

/-- With a tracker that refuses a mark among its pieces printing fails as the tracker does. -/
theorem print_refused {fault : MappingFault}
    (h : t.follow (pieces p.unit 1 (layout.steps node)) = .error fault) :
    ∃ q : Printer, (p.attach t).print layout node = (q, .error fault) ∧ q.tracker.isSome ∧
      q.unit = p.unit := by
  obtain ⟨outcome, tracker, unit⟩ :=
    run_refused (p := { p with level := 1, written := "", tracker := some t }) rfl h
  refine ⟨{ (Printer.run { p with level := 1, written := "", tracker := some t }
    (layout.steps node)).1 with written := "" }, ?_, tracker, unit⟩
  rw [print, textOf]
  simp only [attach] at outcome ⊢
  split
  · rename_i q hrun
    rw [hrun] at outcome
    simp at outcome
  · rename_i q fault' hrun
    rw [hrun] at outcome ⊢
    obtain rfl := Option.some.inj outcome
    rfl

end Printer

end StylePrint
