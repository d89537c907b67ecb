import StylePrint.Proofs.Printing.Heading
/-!
The text of a tree as a function of the tree. `Layout.rendering` puts the text of a node together
from the texts of the nodes inside it, rule by rule for each kind of node; the readable layout also
looks at the unit of indentation and the level of nesting, and neither layout looks at anything
else. A printer that succeeds, with a tracker or without one, writes this text and ends at the level
at which it began (`Printer.run_steps`, `printing_computes_rendering`).
-/

namespace StylePrint

open StylePrint.Sheet

namespace Layout

/-! ### The readable text -/

namespace Readable

/-- The text of a statement behind a margin. Only declarations and comments are indented. -/
def line (margin : String) : Statement → String
  | .declaration property value => margin ++ property ++ ": " ++ value ++ ";"
  | .comment text => margin ++ "/*" ++ text ++ "*/"
  | .charset value => "@charset " ++ value ++ ";"
  | .customMedia name query => "@custom-media " ++ name ++ " " ++ query ++ ";"
  | .atImport value => "@import " ++ value ++ ";"
  | .atNamespace value => "@namespace " ++ value ++ ";"

mutual

/-- The text of a node at a level of nesting. The nodes in a block stand one level further in, and
those of a stylesheet at its own level. -/
def rendering (unit : String) (level : Nat) : Node → String
  | .statement content _ => line (marginAt unit level) content
  | .block head children _ =>
    let margin := marginAt unit level
    let inside (separator : String) := separator.intercalate (renderings unit (level + 1) children)
    match head with
    | .stylesheet _ _ => "\n\n".intercalate (renderings unit level children)
    | .rule selectors =>
      if children.isEmpty then ""
      else ",\n".intercalate (selectors.map (margin ++ ·)) ++ " \x7b\n" ++ inside "\n"
        ++ "\n" ++ margin ++ "\x7d"
    | .document address vendor =>
      "@" ++ vendor.getD "" ++ "document " ++ address ++ "  \x7b\n" ++ inside "\n\n" ++ "\n\x7d"
    | .fontFace => "@font-face \x7b\n" ++ inside "\n" ++ "\n\x7d"
    | .host => "@host \x7b\n" ++ inside "\n\n" ++ "\n\x7d"
    | .keyframes name vendor =>
      "@" ++ vendor.getD "" ++ "keyframes " ++ name ++ " \x7b\n" ++ inside "\n" ++ "\x7d"
    | .keyframe values =>
      margin ++ ", ".intercalate values ++ " \x7b\n" ++ inside "\n" ++ "\n" ++ margin ++ "\x7d\n"
    | .media query => "@media " ++ query ++ " \x7b\n" ++ inside "\n\n" ++ "\n\x7d"
    | .page selectors =>
      "@page " ++ (if selectors.isEmpty then "" else ", ".intercalate selectors ++ " ") ++ "\x7b\n"
        ++ inside "\n" ++ "\n\x7d"
    | .supports condition => "@supports " ++ condition ++ " \x7b\n" ++ inside "\n\n" ++ "\n\x7d"

/-- The texts of nodes at a level of nesting. -/
def renderings (unit : String) (level : Nat) : List Node → List String
  | [] => []
  | node :: rest => rendering unit level node :: renderings unit level rest

end

end Readable

/-! ### The compact text -/

namespace Compact

/-- The text of a statement; nothing is left of a comment. -/
def line : Statement → String
  | .declaration property value => property ++ ":" ++ value ++ ";"
  | .comment _ => ""
  | .charset value => "@charset " ++ value ++ ";"
  | .customMedia name query => "@custom-media " ++ name ++ " " ++ query ++ ";"
  | .atImport value => "@import " ++ value ++ ";"
  | .atNamespace value => "@namespace " ++ value ++ ";"

mutual

/-- The text of a node. -/
def rendering : Node → String
  | .statement content _ => line content
  | .block head children _ =>
    let inside := String.join (renderings children)
    match head with
    | .stylesheet _ _ => inside
    | .rule selectors =>
      if children.isEmpty then "" else ",".intercalate selectors ++ "\x7b" ++ inside ++ "\x7d"
    | .document address vendor =>
      "@" ++ vendor.getD "" ++ "document " ++ address ++ "\x7b" ++ inside ++ "\x7d"
    | .fontFace => "@font-face\x7b" ++ inside ++ "\x7d"
    | .host => "@host\x7b" ++ inside ++ "\x7d"
    | .keyframes name vendor =>
      "@" ++ vendor.getD "" ++ "keyframes " ++ name ++ "\x7b" ++ inside ++ "\x7d"
    | .keyframe values => ",".intercalate values ++ "\x7b" ++ inside ++ "\x7d"
    | .media query => "@media " ++ query ++ "\x7b" ++ inside ++ "\x7d"
    | .page selectors => "@page " ++ ", ".intercalate selectors ++ "\x7b" ++ inside ++ "\x7d"
    | .supports condition => "@supports " ++ condition ++ "\x7b" ++ inside ++ "\x7d"

/-- The texts of nodes. -/
def renderings : List Node → List String
  | [] => []
  | node :: rest => rendering node :: renderings rest

end

end Compact

/-- The text of a node in a layout, at a level of nesting. -/
def rendering (layout : Layout) (unit : String) (level : Nat) (node : Node) : String :=
  match layout with
  | .readable => Readable.rendering unit level node
  | .compact => Compact.rendering node

/-! ### What the steps write -/

namespace Readable

/-- The steps of a statement write its text. -/
theorem charsOf_statement (unit : String) (level : Nat) (content : Statement)
    (position : Option Position) :
    charsOf (pieces unit level (statement content position))
      = (line (marginAt unit level) content).toList := by
  -- equations for the long literals, which simp would make first, take seconds
  unfold line
  cases content <;> simp [statement, Step.pieces, Step.levelAfter, atLine]

/-- A block with a frame writes the frame's parts around the texts of its nodes. -/
theorem charsOf_framed (unit : String) (level : Nat) {head : Head} {frame : Frame}
    {children : List Node} (position : Option Position) (hv : vanishes head children = false)
    (hf : frame? head = some frame) :
    charsOf (pieces unit level frame.lead) ++ (charsOf (pieces unit level frame.header)
        ++ (frame.opening.toList
          ++ ((frame.separator.intercalate (renderings unit (level + 1) children)).toList
            ++ charsOf (pieces unit level frame.closing))))
      = (rendering unit level (.block head children position)).toList := by
  cases head with
  | stylesheet source errors => cases hf
  | rule selectors =>
      obtain rfl := Option.some.inj hf
      have hchildren : children.isEmpty = false := hv
      simp [rendering, hchildren, charsOf_selectorLines, Step.pieces, Step.levelAfter]
  | page selectors =>
      obtain rfl := Option.some.inj hf
      cases selectors <;> simp [rendering, declarationFrame, pageHeader, Step.pieces]
  | _ =>
      obtain rfl := Option.some.inj hf
      simp [rendering, ruleFrame, declarationFrame, atHeader, Step.pieces, Step.levelAfter]

variable (unit : String)

mutual

/-- The steps of a node write its text. -/
theorem charsOf_steps {level : Nat} (hl : 1 ≤ level) :
    ∀ node : Node, charsOf (pieces unit level (steps node)) = (rendering unit level node).toList
  | .statement content position => charsOf_statement unit level content position
  | .block head children position => by
      cases hv : vanishes head children with
      | true =>
          obtain ⟨selectors, rfl, rfl⟩ := vanishes_iff.mp hv
          simp [steps, hv, rendering]
      | false =>
          cases hf : frame? head with
          | none =>
              obtain ⟨source, errors, rfl⟩ := frame?_eq_none_iff.mp hf
              rw [rendering, ← charsOf_separated hl "\n\n" children]
              simp [steps, hv, hf]
          | some frame =>
              -- the nodes inside stand a level further in, where their texts are known
              rw [pieces_block unit hl position hv hf, ← charsOf_framed unit level position hv hf,
                ← charsOf_separated (Nat.le_add_left 1 level) frame.separator children]
              simp only [charsOf_append, charsOf_cons, charsOf_marks, chars_text, List.nil_append]

/-- The steps of nodes write their texts with the separator between each two. -/
theorem charsOf_separated {level : Nat} (hl : 1 ≤ level) (separator : String) :
    ∀ nodes : List Node, charsOf (pieces unit level (separated separator nodes))
      = (separator.intercalate (renderings unit level nodes)).toList
  | [] => by simp [separated, renderings]
  | [node] => by simp [separated, renderings, charsOf_steps hl node]
  | node :: next :: rest => by
      have tail := charsOf_separated hl separator (next :: rest)
      rw [pieces_separated_cons unit hl, charsOf_append, charsOf_cons, charsOf_steps hl node, tail]
      simp [renderings]

end

end Readable

namespace Compact

/-- The steps of a statement write its text. -/
theorem charsOf_statementText (unit : String) (level : Nat) (content : Statement) :
    charsOf (pieces unit level (statementText content)) = (line content).toList := by
  unfold line
  cases content <;> simp [statementText, Step.pieces, Step.levelAfter, atLine]

/-- A block with a header writes it, and braces around the texts of its nodes. -/
theorem rendering_headed {head : Head} {header : String} {children : List Node}
    (position : Option Position) (hv : vanishes head children = false)
    (hh : header? head = some header) :
    rendering (.block head children position)
      = header ++ "\x7b" ++ String.join (renderings children) ++ "\x7d" := by
  cases head with
  | stylesheet source errors => cases hh
  | rule selectors =>
      obtain rfl := Option.some.inj hh
      have hchildren : children.isEmpty = false := hv
      simp [rendering, hchildren]
  | _ =>
      obtain rfl := Option.some.inj hh
      simp [rendering, atHeader, String.append_assoc]

variable (unit : String) (level : Nat)

mutual

/-- The steps of a node write its text, at any level. -/
theorem charsOf_steps :
    ∀ node : Node, charsOf (pieces unit level (steps node)) = (rendering node).toList
  | .statement content position => by
      rw [pieces_statement, charsOf_append, charsOf_marks, charsOf_statementText]
      rfl
  | .block head children position => by
      cases hv : vanishes head children with
      | true =>
          obtain ⟨selectors, rfl, rfl⟩ := vanishes_iff.mp hv
          simp [steps, hv, rendering]
      | false =>
          cases hh : header? head with
          | none =>
              obtain ⟨source, errors, rfl⟩ := header?_eq_none_iff.mp hh
              simp [steps, hv, hh, rendering, charsOf_all]
          | some header =>
              rw [pieces_block unit level position hv hh, rendering_headed position hv hh]
              simp [charsOf_all]

/-- The steps of nodes write their texts, one behind the other. -/
theorem charsOf_all :
    ∀ nodes : List Node, charsOf (pieces unit level (all nodes))
      = (String.join (renderings nodes)).toList
  | [] => by simp [all, renderings]
  | node :: rest => by
      rw [pieces_all_cons, charsOf_append, charsOf_steps node, charsOf_all rest]
      simp [renderings]

end

end Compact

/-- Both layouts leave a node at the level they enter it at. -/
theorem levelAfter_steps (layout : Layout) {level : Nat} (hl : 1 ≤ level) (node : Node) :
    levelAfter level (layout.steps node) = level := by
  cases layout with
  | readable => exact Readable.levelAfter_steps hl node
  | compact => exact Compact.levelAfter_steps level node

/-- Both layouts write the text of a node. -/
theorem charsOf_steps (layout : Layout) (unit : String) {level : Nat} (hl : 1 ≤ level)
    (node : Node) :
    charsOf (pieces unit level (layout.steps node))
      = (layout.rendering unit level node).toList := by
  cases layout with
  | readable => exact Readable.charsOf_steps unit hl node
  | compact => exact Compact.charsOf_steps unit level node

/-- The steps in which a layout prints nodes and texts, one after another. -/
def listed (layout : Layout) (parts : List (Node ⊕ String)) : List Step :=
  parts.flatMap (Sum.elim layout.steps fun text => [.text text])

/-- Nodes and texts are left at the level they are entered at. -/
theorem levelAfter_listed (layout : Layout) {level : Nat} (hl : 1 ≤ level)
    (parts : List (Node ⊕ String)) : levelAfter level (layout.listed parts) = level := by
  induction parts with
  | nil => rfl
  | cons part rest ih =>
      rw [listed, List.flatMap_cons, levelAfter_append]
      cases part with
      | inl node => rwa [Sum.elim_inl, levelAfter_steps layout hl node]
      | inr text => exact ih

end Layout

/-! ### What a printer that succeeds has written -/

namespace Printer

variable {p q : Printer}

/-- Steps that succeed leave the printer behind them, with some tracker. -/
theorem run_ok {steps : List Layout.Step} (h : p.run steps = (q, none)) :
    ∃ tracker, q = p.behind steps tracker := by
  cases ht : p.tracker with
  | none =>
      rw [run_untracked ht] at h
      exact ⟨none, (Prod.mk.inj h).1.symm⟩
  | some tracker =>
      cases hf : tracker.follow (Layout.pieces p.unit p.level steps) with
      | ok next =>
          rw [run_tracked ht hf] at h
          exact ⟨some next, (Prod.mk.inj h).1.symm⟩
      | error fault =>
          have refused := (run_refused ht hf).1
          simp [h] at refused

/-- A printer that succeeds writes the text of the node and ends at the level it began at. -/
theorem run_steps {layout : Layout} {node : Node} (hl : 1 ≤ p.level)
    (h : p.run (layout.steps node) = (q, none)) :
    q.level = p.level ∧ q.unit = p.unit ∧
      q.written = p.written ++ layout.rendering p.unit p.level node := by
  obtain ⟨tracker, rfl⟩ := run_ok h
  refine ⟨Layout.levelAfter_steps layout hl node, rfl, ?_⟩
  rw [behind, Layout.charsOf_steps layout p.unit hl node, String.ofList_toList]

/-- What is printed before a node at its level changes neither the level nor the unit. -/
theorem run_listed {layout : Layout} {parts : List (Node ⊕ String)} (hl : 1 ≤ p.level)
    (h : p.run (layout.listed parts) = (q, none)) : q.level = p.level ∧ q.unit = p.unit := by
  obtain ⟨tracker, rfl⟩ := run_ok h
  exact ⟨Layout.levelAfter_listed layout hl parts, rfl⟩

/-- Steps that succeed as a text of their own succeed from a printer that has written nothing. -/
theorem textOf_ok {steps : List Layout.Step} {code : String} (h : p.textOf steps = (q, .ok code)) :
    ∃ r, { p with written := "" }.run steps = (r, none) ∧ r.written = code ∧ q.level = r.level := by
  rw [textOf] at h
  split at h
  · rename_i r hrun
    obtain ⟨rfl, hcode⟩ := Prod.mk.inj h
    exact ⟨r, hrun, Except.ok.inj hcode, rfl⟩
  · cases h

end Printer

/-- **Printing computes the rendering.** From any level, with a tracker or without one, a printer
that prints a node to the end is at that level again and has written the rendering of the node. So
it does behind any nodes and texts that were printed at that level before; and a text printed from
the outermost level, whatever the printer has printed, is a function of the unit and the node. -/
theorem printing_computes_rendering (layout : Layout) (node : Node) {p : Printer}
    (hlevel : 1 ≤ p.level) :
    (∀ q, p.run (layout.steps node) = (q, none) →
      q.level = p.level ∧ q.unit = p.unit ∧
        q.written = p.written ++ layout.rendering p.unit p.level node) ∧
    (∀ parts q r, p.run (layout.listed parts) = (q, none) →
      q.run (layout.steps node) = (r, none) →
      r.level = p.level ∧ r.written = q.written ++ layout.rendering p.unit p.level node) ∧
    (∀ q code, p.print layout node = (q, .ok code) →
      q.level = 1 ∧ code = layout.rendering p.unit 1 node) := by
  refine ⟨fun q hrun => Printer.run_steps hlevel hrun, ?_, ?_⟩
  · intro parts q r hparts hrun
    obtain ⟨level, unit⟩ := Printer.run_listed hlevel hparts
    obtain ⟨level', -, written⟩ := Printer.run_steps (level ▸ hlevel) hrun
    rw [level, unit] at written
    exact ⟨level'.trans level, written⟩
  · intro q code hprint
    obtain ⟨r, hrun, hcode, hq⟩ := Printer.textOf_ok hprint
    obtain ⟨level, -, written⟩ := Printer.run_steps (Nat.le_refl 1) hrun
    refine ⟨hq.trans level, ?_⟩
    rw [← hcode, written]
    simp

/-- A block of keyframes and a page in a media block, printed behind a rule and a blank line on the
third level while a tracker follows. -/
theorem printing_computes_rendering_of_media :
    let position (line column : UInt32) : Option Position :=
      some { start := ⟨line, column⟩, source := some "a.css" }
    let declaration : Node := .statement (.declaration "top" "0") (position 4 7)
    let rule : Node := .block (.rule ["a", "b"]) [declaration] (position 9 1)
    let keyframe : Node := .block (.keyframe ["from", "to"]) [declaration] (position 3 5)
    let node : Node := .block (.media "print")
      [.block (.keyframes "k" (some "-o-")) [keyframe] (position 2 3),
        .block (.page []) [declaration] none] (position 1 1)
    let p : Printer := { unit := "\t", level := 3, tracker := some (Tracker.start {}) }
    let q := (p.run (Layout.readable.listed [.inl rule, .inr "\n\n"])).1
    let r := (q.run (Layout.readable.steps node)).1
    p.run (Layout.readable.listed [.inl rule, .inr "\n\n"]) = (q, none) ∧
      q.run (Layout.readable.steps node) = (r, none) ∧ r.level = 3 ∧
      r.written = q.written ++ ("@media print \x7b\n@-o-keyframes k \x7b\n"
        ++ "\t\t\t\tfrom, to \x7b\n\t\t\t\t\ttop: 0;\n\t\t\t\t\x7d\n\x7d\n\n"
        ++ "@page \x7b\n\t\t\t\ttop: 0;\n\x7d\n\x7d") := by
  intro position declaration rule keyframe node p q r
  have hq : p.run (Layout.readable.listed [.inl rule, .inr "\n\n"]) = (q, none) :=
    Prod.ext rfl (by decide +kernel)
  have hr : q.run (Layout.readable.steps node) = (r, none) := Prod.ext rfl (by decide +kernel)
  obtain ⟨-, behind, -⟩ := printing_computes_rendering .readable node (p := p) (by decide)
  obtain ⟨level, written⟩ := behind _ q r hq hr
  refine ⟨hq, hr, level, written.trans (congrArg (q.written ++ ·) ?_)⟩
  decide +kernel

end StylePrint
