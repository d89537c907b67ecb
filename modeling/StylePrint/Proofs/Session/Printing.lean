import StylePrint.Proofs.Printing.Piece
import StylePrint.Proofs.SourceMap.Reading
import StylePrint.Session
/-!
What a session answers, told apart from how it gets there. `Layout.text` is the text of a tree and
`mapped` the outcome of printing it with a map; neither mentions a session, a printer or a memory.
A session whose printer has the unit of its options prints a tree with a map as `mapped` says, and
leaves the printer without a tracker (`Session.printWithMap_eq`); one tree by itself is printed as
one of the two (`stringify_of_wantsMap`, `stringify_of_not_wantsMap`).
-/

namespace StylePrint

open StylePrint.SourceMap StylePrint.Sheet

/-- The text of a node in a layout. -/
def Layout.text (layout : Layout) (unit : String) (node : Node) : String :=
  String.ofList (charsOf (pieces unit 1 (layout.steps node)))

/-- What printing a node with a map comes to: the first mark that a new tracker refuses, or the text
with the map that applying the maps of the sources leaves. -/
def mapped (options : Options) (node : Node) : Reading (Except PrintError Printed) :=
  match (Tracker.start options).follow
      (Layout.pieces options.indentation 1 (options.layout.steps node)) with
  | .error fault => return .error (.ofMapping fault)
  | .ok tracker => do
    let (tracker, fault) ← tracker.applyMaps
    match fault with
    | some fault => return .error (.ofApply fault)
    | none =>
      return .ok ⟨options.layout.text options.indentation node,
        some (Session.mapOf options.sourcemap tracker.draft)⟩

namespace Session

/-- **Printing with a map does not show the session**, which remembers the text unless the tracker
refuses a mark. -/
theorem printWithMap_eq (s : Session) (hunit : s.printer.unit = s.options.indentation)
    (node : Node) :
    ∃ s' : Session, s.printWithMap node = (mapped s.options node >>= fun outcome =>
        pure (s', outcome)) ∧
      s'.options = s.options ∧ s'.printer.unit = s.printer.unit ∧ s'.printer.tracker = none ∧
      s'.renders = s.renders + 1 ∧
      s'.memory = match (Tracker.start s.options).follow
          (Layout.pieces s.options.indentation 1 (s.options.layout.steps node)) with
        | .error _ => s.memory
        | .ok _ => remember s.memory node.key
            (s.options.layout.text s.options.indentation node) := by
  unfold printWithMap mapped
  cases hf : (Tracker.start s.options).follow
      (Layout.pieces s.options.indentation 1 (s.options.layout.steps node)) with
  | error fault =>
      rw [← hunit] at hf
      obtain ⟨q, hprint, htracker, hq⟩ :=
        s.printer.print_refused (Tracker.start s.options) s.options.layout node hf
      obtain ⟨t, ht⟩ := Option.isSome_iff_exists.mp htracker
      refine ⟨{ s with printer := q.detach, renders := s.renders + 1 }, ?_, rfl, hq, rfl, rfl,
        rfl⟩
      simp only [render, hprint, ht]
      rfl
  | ok t =>
      rw [← hunit] at hf
      have hprint := s.printer.print_tracked (Tracker.start s.options) s.options.layout node hf
      refine ⟨{ s with
          printer := { s.printer with
            level := Layout.levelAfter 1 (s.options.layout.steps node)
            written := ""
            tracker := none }
          renders := s.renders + 1
          memory := remember s.memory node.key
            (s.options.layout.text s.options.indentation node) },
        ?_, rfl, rfl, rfl, rfl, rfl⟩
      simp only [render, hprint, Reading.bind_assoc, hunit]
      show (t.applyMaps >>= _) = _
      congr 1
      funext applied
      obtain ⟨applied, fault⟩ := applied
      cases fault with
      | none => rfl
      | some fault => rfl

/-- Printing without a tracker always gives the text of a tree, and remembers it. -/
theorem render_untracked (s : Session) (huntracked : s.printer.tracker = none) (node : Node) :
    let code := s.options.layout.text s.printer.unit node
    s.render node = ({ s with
        printer := { s.printer with
          level := Layout.levelAfter 1 (s.options.layout.steps node)
          written := ""
          tracker := none }
        renders := s.renders + 1
        memory := remember s.memory node.key code }, .ok code) := by
  rw [render, s.printer.print_untracked s.options.layout node huntracked]
  rfl

end Session

/-! ### One tree -/

variable {options : Options}

/-- With a map, a tree is printed as `mapped` says. -/
theorem stringify_of_wantsMap (h : options.wantsMap = true) (node : Node) :
    stringify options (some node) = mapped options node := by
  obtain ⟨s', heq, -⟩ := (Session.start options).printWithMap_eq rfl node
  have hstep : (Session.start options).stringify (some node)
      = (Session.start options).printWithMap node := if_pos h
  rw [stringify, hstep, heq, Reading.map_eq_bind, Reading.bind_assoc]
  exact Reading.bind_pure _

/-- Without a map, a tree is printed as its text. -/
theorem stringify_of_not_wantsMap (h : options.wantsMap = false) (node : Node) :
    stringify options (some node)
      = pure (.ok ⟨options.layout.text options.indentation node, none⟩) := by
  have hstep : (Session.start options).stringify (some node)
      = pure (((Session.start options).render node).1,
          ((Session.start options).render node).2.map fun code => ⟨code, none⟩) :=
    if_neg (by rw [Session.start, h]; exact Bool.false_ne_true)
  rw [stringify, hstep, Session.render_untracked _ rfl]
  rfl

end StylePrint
