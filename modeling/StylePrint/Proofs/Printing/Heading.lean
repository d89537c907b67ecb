import Mathlib.Data.List.Forall2
import StylePrint.Proofs.Printing.Mark
import StylePrint.Proofs.Printing.Outline
/-!
Headings: what stands in the text at the place of each mark. `Layout.headings` lists the nodes of a
tree that leave a mark, in the order of the text, each with the heading that its layout writes for
it; it is defined on the tree alone.

* `Layout.heads_layout`: the marks among the pieces of a node are those of its headings, and
  each is followed by its heading.
* `mappings_point_at_headings`: a tracker that starts with the text ends at the place the text
  reaches, and every mapping it recorded points at the heading of its node.
-/

namespace StylePrint

open StylePrint.SourceMap StylePrint.Sheet

namespace Layout

/-! ### The headings of a tree -/

/-- What the readable layout writes at the mark of a statement. -/
def Readable.caption (margin : String) : Statement → String
  | .declaration property value => property ++ ": " ++ value
  | .comment text => margin ++ ("/*" ++ text ++ "*/")
  | .charset value => atLine "charset" value
  | .customMedia name query => atLine "custom-media" (name ++ " " ++ query)
  | .atImport value => atLine "import" value
  | .atNamespace value => atLine "namespace" value

/-- What the readable layout writes at the mark of a block; a stylesheet has no mark. -/
def Readable.title? (margin : String) : Head → Option String
  | .stylesheet _ _ => none
  | .rule selectors => some (",\n".intercalate (selectors.map (margin ++ ·)))
  | .document address vendor => some (atHeader vendor "document" address)
  | .fontFace => some "@font-face "
  | .host => some "@host"
  | .keyframes name vendor => some (atHeader vendor "keyframes" name)
  | .keyframe values => some (", ".intercalate values)
  | .media query => some (atHeader none "media" query)
  | .page selectors => some (pageHeader selectors)
  | .supports condition => some (atHeader none "supports" condition)

/-- What the compact layout writes at the mark of a statement: of a comment nothing is left. -/
def Compact.caption : Statement → String
  | .declaration property value => property ++ ":" ++ value
  | .comment _ => ""
  | .charset value => atLine "charset" value
  | .customMedia name query => atLine "custom-media" (name ++ " " ++ query)
  | .atImport value => atLine "import" value
  | .atNamespace value => atLine "namespace" value

/-- What a layout writes at the mark of a statement. -/
def caption (layout : Layout) (margin : String) (content : Statement) : String :=
  match layout with
  | .readable => Readable.caption margin content
  | .compact => Compact.caption content

/-- What a layout writes at the mark of a block; a stylesheet has no mark. -/
def title? (layout : Layout) (margin : String) (head : Head) : Option String :=
  match layout with
  | .readable => Readable.title? margin head
  | .compact => Compact.header? head

/-- The heading of a node that carries a position. -/
def headed (position : Option Position) (heading : String) : List (Position × String) :=
  position.toList.map (·, heading)

mutual

/-- The positions that a node marks, in the order of the text, each with the heading that stands at
its mark. A rule without anything inside marks nothing. -/
def headings (layout : Layout) (unit : String) (level : Nat) : Node → List (Position × String)
  | .statement content position => headed position (layout.caption (marginAt unit level) content)
  | .block head children position =>
    if vanishes head children then []
    else match layout.title? (marginAt unit level) head with
      | none => headingsOfAll layout unit level children
      | some title =>
        headed position title ++ headingsOfAll layout unit (level + 1) children

/-- The positions that nodes mark, with their headings. -/
def headingsOfAll (layout : Layout) (unit : String) (level : Nat) :
    List Node → List (Position × String)
  | [] => []
  | node :: rest => headings layout unit level node ++ headingsOfAll layout unit level rest

end

/-! ### Headings among pieces -/

/-- Whether the marks among pieces are those of given headings, each followed by its heading. -/
def Heads (ps : List Piece) (headings : List (Position × String)) : Prop :=
  List.Forall₂ (fun entry heading => entry.1 = heading.1 ∧ heading.2.toList <+: entry.2)
    (announced ps) headings

theorem Heads.of_plain {ps : List Piece} (h : ∀ p ∈ ps, p.IsPlain) : Heads ps [] := by
  rw [Heads, announced_of_plain h]
  exact .nil

theorem Heads.text {ps : List Piece} {hs : List (Position × String)} (h : Heads ps hs)
    (content : String) : Heads (.text content :: ps) hs :=
  h

theorem Heads.append {ps qs : List Piece} {hs gs : List (Position × String)} (h : Heads ps hs)
    (g : Heads qs gs) : Heads (ps ++ qs) (hs ++ gs) := by
  rw [Heads, announced_append]
  refine List.rel_append ?_ g
  rw [List.forall₂_map_left_iff]
  -- text behind a mark does not take its heading away
  refine h.imp ?_
  rintro entry heading ⟨hposition, hbegins⟩
  exact ⟨hposition, hbegins.trans (List.prefix_append _ _)⟩

theorem Heads.mark {ps : List Piece} {hs : List (Position × String)} {heading : String}
    (position : Option Position) (hbegins : heading.toList <+: charsOf ps) (h : Heads ps hs) :
    Heads (position.toList.map Piece.mark ++ ps) (headed position heading ++ hs) := by
  cases position with
  | none => exact h
  | some position => exact .cons ⟨rfl, hbegins⟩ h

/-- A mark in front of pieces that only write. -/
theorem Heads.mark_plain (position : Option Position) (heading : String) (ps : List Piece)
    (hbegins : heading.toList <+: charsOf ps) (h : ∀ p ∈ ps, p.IsPlain) :
    Heads (position.toList.map Piece.mark ++ ps) (headed position heading) := by
  have marked := Heads.mark position hbegins (Heads.of_plain h)
  rwa [List.append_nil] at marked

/-! ### The compact layout -/

namespace Compact

/-- The levels of pieces and headings need not agree: the compact layout writes no margins. -/
theorem heads_statement (unit : String) (level level' : Nat) (content : Statement)
    (position : Option Position) :
    Heads (pieces unit level (steps (.statement content position)))
      (headings .compact unit level' (.statement content position)) := by
  rw [pieces_statement, headings]
  refine Heads.mark_plain position _ _ ?_ (pieces_of_plain (plain_statementText content) unit level)
  cases content <;> simp [Layout.caption, caption, statementText, Step.pieces, Step.levelAfter]

mutual

theorem heads_steps (unit : String) (level level' : Nat) :
    ∀ node : Node, Heads (pieces unit level (steps node)) (headings .compact unit level' node)
  | .statement content position => heads_statement unit level level' content position
  | .block head children position => by
      cases hv : vanishes head children with
      | true =>
          rw [steps, headings, if_pos hv, if_pos hv]
          exact .nil
      | false =>
          cases hh : header? head with
          | none =>
              simpa [steps, headings, hv, hh, Layout.title?] using
                heads_all unit level level' children
          | some header =>
              have inner := heads_all unit level (level' + 1) children
              have closing : Heads [.text "\x7d"] [] := .nil
              have whole := inner.append closing
              rw [List.append_nil] at whole
              rw [pieces_block unit level position hv hh, headings, if_neg (by simp [hv])]
              simp only [Layout.title?, hh]
              refine Heads.mark position ?_ ((whole.text "\x7b").text header)
              simp

theorem heads_all (unit : String) (level level' : Nat) :
    ∀ nodes : List Node, Heads (pieces unit level (all nodes))
      (headingsOfAll .compact unit level' nodes)
  | [] => .nil
  | node :: rest => by
      rw [pieces_all_cons, headingsOfAll]
      exact (heads_steps unit level level' node).append (heads_all unit level level' rest)

end

end Compact

/-! ### The readable layout -/

namespace Readable

/-- The selectors of a rule are written with the margin in front of each. -/
theorem charsOf_selectorLines (unit : String) (level : Nat) (selectors : List String) :
    charsOf (pieces unit level (selectorLines selectors))
      = (",\n".intercalate (selectors.map (marginAt unit level ++ ·))).toList := by
  unfold selectorLines
  induction selectors with
  | nil => rfl
  | cons selector rest ih =>
      cases rest with
      | nil => simp [Step.pieces, Step.levelAfter]
      | cons next more =>
          simp only [List.map_cons, List.intercalate_cons_cons] at ih ⊢
          rw [pieces_append, pieces_append, charsOf_append, charsOf_append]
          simp only [levelAfter_append, levelAfter_cons, levelAfter_nil, Step.levelAfter, ih]
          simp [Step.pieces, Step.levelAfter]

/-- A frame writes the title of its block at the mark. -/
theorem charsOf_header (unit : String) (level : Nat) {head : Head} {frame : Frame}
    (h : frame? head = some frame) :
    (title? (marginAt unit level) head).map String.toList
      = some (charsOf (pieces unit level frame.header)) := by
  cases head with
  | stylesheet source errors => simp [frame?] at h
  | rule selectors =>
      obtain rfl := Option.some.inj h
      rw [charsOf_selectorLines]
      rfl
  | _ =>
      obtain rfl := Option.some.inj h
      simp [title?, ruleFrame, declarationFrame, Step.pieces]

theorem title?_eq_none {margin : String} {head : Head} (h : frame? head = none) :
    title? margin head = none := by
  cases head <;> first | rfl | simp [frame?] at h

theorem heads_statement (unit : String) (level : Nat) (content : Statement)
    (position : Option Position) :
    Heads (pieces unit level (steps (.statement content position)))
      (headings .readable unit level (.statement content position)) := by
  rw [headings]
  cases content with
  | declaration property value =>
      have marked := Heads.mark_plain position (property ++ ": " ++ value)
        [.text (property ++ ": " ++ value), .text ";"] (by simp) (by simp [Piece.IsPlain])
      simpa [steps, statement, Step.pieces, Step.levelAfter, Layout.caption, caption] using
        marked.text (marginAt unit level)
  | comment text =>
      have marked := Heads.mark_plain position (marginAt unit level ++ ("/*" ++ text ++ "*/"))
        [.text (marginAt unit level), .text ("/*" ++ text ++ "*/")] (by simp)
        (by simp [Piece.IsPlain])
      simpa [steps, statement, Step.pieces, Step.levelAfter, Layout.caption, caption] using marked
  | _ =>
      simp only [steps, statement, Layout.caption, caption, pieces_append, pieces_marks,
        levelAfter_marks, pieces_cons, pieces_nil, Step.pieces]
      exact Heads.mark_plain position _ _ (by simp) (by simp [Piece.IsPlain])

mutual

theorem heads_steps (unit : String) {level : Nat} (hl : 1 ≤ level) :
    ∀ node : Node, Heads (pieces unit level (steps node)) (headings .readable unit level node)
  | .statement content position => heads_statement unit level content position
  | .block head children position => by
      cases hv : vanishes head children with
      | true =>
          rw [steps, headings, if_pos hv, if_pos hv]
          exact .nil
      | false =>
          cases hf : frame? head with
          | none =>
              simpa [steps, headings, hv, hf, Layout.title?, title?_eq_none hf] using
                heads_separated unit hl "\n\n" children
          | some frame =>
              have plain := plain_frame hf
              have inner := heads_separated unit (Nat.le_add_left 1 level) frame.separator children
              have around := (inner.append
                (Heads.of_plain (pieces_of_plain plain.closing unit level))).text frame.opening
              have header := Heads.of_plain (pieces_of_plain plain.header unit level)
              have lead := Heads.of_plain (pieces_of_plain plain.lead unit level)
              obtain ⟨title, ht, hchars⟩ := Option.map_eq_some_iff.mp
                (charsOf_header unit level hf)
              rw [pieces_block unit hl position hv hf, headings, if_neg (by simp [hv])]
              simp only [Layout.title?, ht]
              rw [List.append_nil] at around
              refine lead.append (Heads.mark position ?_ (header.append around))
              rw [charsOf_append, hchars]
              exact List.prefix_append _ _

theorem heads_separated (unit : String) {level : Nat} (hl : 1 ≤ level) (separator : String) :
    ∀ nodes : List Node, Heads (pieces unit level (separated separator nodes))
      (headingsOfAll .readable unit level nodes)
  | [] => .nil
  | [node] => by
      rw [separated, headingsOfAll, headingsOfAll, List.append_nil]
      exact heads_steps unit hl node
  | node :: next :: rest => by
      have tail := heads_separated unit hl separator (next :: rest)
      rw [pieces_separated_cons unit hl, headingsOfAll]
      exact (heads_steps unit hl node).append (tail.text separator)

end

end Readable

/-- The marks among the pieces of a node are those of its headings, and each is followed by its
heading. -/
theorem heads_layout (layout : Layout) (unit : String) (node : Node) :
    Heads (pieces unit 1 (layout.steps node)) (layout.headings unit 1 node) := by
  cases layout with
  | readable => exact Readable.heads_steps unit (Nat.le_refl 1) node
  | compact => exact Compact.heads_steps unit 1 1 node

end Layout

/-! ### Where mappings point -/

/-- Whether a mapping points at a heading in a text: some beginning of the text leads to the
mapping's generated place, the heading follows it, and the origin is the start of the heading's
position, with its column counted from zero. -/
def PointsAt (code : List Char) (mapping : Mapping) (heading : Position × String) : Prop :=
  ∃ before after, code = before ++ after ∧ heading.2.toList <+: after ∧
    mapping.generated = (Caret.start.walk before).place ∧
    mapping.origin = some ⟨Tracker.sourceOf heading.1,
      ⟨heading.1.start.line, heading.1.start.column - 1⟩, none⟩

/-- The mappings along pieces point at the headings that the pieces announce. -/
theorem pointsAt_along {ps : List Layout.Piece} {hs : List (Position × String)}
    (h : Layout.Heads ps hs) :
    List.Forall₂ (PointsAt (Layout.charsOf ps)) (Tracker.along Caret.start ps) hs := by
  have placed := Tracker.along_announced Caret.start ps
  unfold Layout.Heads at h
  rw [List.forall₂_iff_get] at placed h ⊢
  obtain ⟨hlen, hplaced⟩ := placed
  obtain ⟨glen, hheads⟩ := h
  refine ⟨hlen.trans glen, ?_⟩
  intro i hi gi
  obtain ⟨before, hsplit, hmapping⟩ := hplaced i hi (hlen ▸ hi)
  obtain ⟨hposition, hbegins⟩ := hheads i (hlen ▸ hi) gi
  refine ⟨before, _, hsplit, hbegins, ?_, ?_⟩
  · rw [hmapping]
    rfl
  · rw [hmapping, ← hposition]
    rfl

/-- **Every recorded mapping points at its node.** When a node is printed while a new tracker
follows, the tracker ends at the place that the text reaches, and the mappings it recorded are
those of the headings of the tree, in order, each pointing at its heading. -/
theorem mappings_point_at_headings {p q : Printer} {options : Options} {layout : Layout}
    {node : Node} {code : String}
    (h : (p.attach (Tracker.start options)).print layout node = (q, .ok code)) :
    ∃ t, q.tracker = some t ∧ t.caret = Caret.start.walk code.toList ∧
      List.Forall₂ (PointsAt code.toList) t.draft.mappings.toList
        (layout.headings p.unit 1 node) := by
  cases hf : (Tracker.start options).follow (Layout.pieces p.unit 1 (layout.steps node)) with
  | error fault =>
      obtain ⟨q', hprint, -⟩ := Printer.print_refused p _ layout node hf
      rw [hprint] at h
      simp at h
  | ok t =>
      rw [Printer.print_tracked p _ layout node hf] at h
      obtain ⟨rfl, hcode⟩ := Prod.mk.inj h
      obtain rfl := Except.ok.inj hcode
      refine ⟨t, rfl, ?_, ?_⟩
      · rw [Tracker.caret_follow hf, String.toList_ofList, Tracker.caret_start]
      · rw [Tracker.mappings_follow hf, String.toList_ofList]
        exact pointsAt_along (Layout.heads_layout layout p.unit node)

/-- A rule of two selectors inside a block, read from the second line of a file on Windows. -/
theorem mappings_point_at_headings_of_media :
    let position (line column : UInt32) : Option Position :=
      some { start := ⟨line, column⟩, source := some "css\\a.css" }
    let rule : Node := .block (.rule ["a", "b"])
      [.statement (.declaration "color" "red") (position 3 5)] (position 2 3)
    let node : Node := .block (.media "print") [.statement (.comment "x") none, rule] (position 1 1)
    let code := "@media print \x7b\n  /*x*/\n\n  a,\n  b \x7b\n    color: red;\n  \x7d\n\x7d"
    ∃ q, ((Printer.start {}).attach (Tracker.start {})).print .readable node = (q, .ok code) ∧
      ∃ t, q.tracker = some t ∧ t.caret = Caret.start.walk code.toList ∧
        List.Forall₂ (PointsAt code.toList) t.draft.mappings.toList
          (Layout.readable.headings "  " 1 node) := by
  intro position rule node code
  have printed : ∃ q,
      ((Printer.start {}).attach (Tracker.start {})).print .readable node = (q, .ok code) :=
    ⟨_, rfl⟩
  obtain ⟨q, hq⟩ := printed
  exact ⟨q, hq, mappings_point_at_headings hq⟩

end StylePrint
