import StylePrint.Proofs.Printing.Heading
import StylePrint.Proofs.Session.Printing
/-!
The compact layout only leaves out. Node by node, what it writes is what the readable layout writes
with some characters left out, whatever the levels of nesting (`Layout.sublist_steps`): margins,
separators, blanks and comments go, and the rest stays in its order. So a compact text is never
longer than the readable one (`compact_is_sublist`).
-/

namespace StylePrint

open StylePrint.Sheet

namespace Layout

/-! ### Parts of a block -/

/-- Texts that lose characters still do when they are put together, with a separator that loses
some. -/
theorem sublist_intercalate {short long : String} (hsep : short.toList.Sublist long.toList) :
    ∀ {xs ys : List String}, List.Forall₂ (fun x y => x.toList.Sublist y.toList) xs ys →
      (short.intercalate xs).toList.Sublist (long.intercalate ys).toList
  | [], _, .nil => by simp
  | [_], _, .cons h .nil => by simpa using h
  | _ :: _ :: _, _, .cons h (.cons h' rest) => by
      have tail := sublist_intercalate hsep (.cons h' rest)
      simpa using h.append (hsep.append tail)

/-- The compact header of a block is the readable one less some characters. -/
theorem sublist_title (margin : String) {head : Head} {header title : String}
    (hheader : Compact.header? head = some header)
    (htitle : Readable.title? margin head = some title) :
    header.toList.Sublist title.toList := by
  cases head with
  | stylesheet source errors => cases hheader
  | rule selectors =>
      obtain rfl := Option.some.inj hheader
      obtain rfl := Option.some.inj htitle
      refine sublist_intercalate (by decide) ?_
      rw [List.forall₂_map_right_iff, List.forall₂_same]
      intro selector _
      simp
  | keyframe values =>
      obtain rfl := Option.some.inj hheader
      obtain rfl := Option.some.inj htitle
      refine sublist_intercalate (by decide) ?_
      rw [List.forall₂_same]
      intro value _
      exact List.Sublist.refl _
  | fontFace =>
      obtain rfl := Option.some.inj hheader
      obtain rfl := Option.some.inj htitle
      decide
  | page selectors =>
      obtain rfl := Option.some.inj hheader
      obtain rfl := Option.some.inj htitle
      rw [Readable.pageHeader]
      split
      · rename_i hempty
        rw [List.isEmpty_iff.mp hempty]
        simp
      · simp
  | _ =>
      -- these headers are one and the same in both layouts
      obtain rfl := Option.some.inj hheader
      obtain rfl := Option.some.inj htitle
      exact List.Sublist.refl _

/-- Every readable block opens and closes with a brace. -/
theorem sublist_braces (unit : String) (level : Nat) {head : Head} {frame : Readable.Frame}
    (h : Readable.frame? head = some frame) :
    ['\x7b'].Sublist frame.opening.toList ∧
      ['\x7d'].Sublist (charsOf (pieces unit level frame.closing)) := by
  cases head with
  | stylesheet source errors => cases h
  | _ =>
      obtain rfl := Option.some.inj h
      constructor
      · simp [Readable.ruleFrame, Readable.declarationFrame]
      · simp [Readable.ruleFrame, Readable.declarationFrame, Step.pieces, Step.levelAfter]

/-- Only a stylesheet is a block without a frame, in either layout. -/
theorem header?_eq_none_iff (head : Head) :
    Compact.header? head = none ↔ Readable.frame? head = none :=
  Compact.header?_eq_none_iff.trans Readable.frame?_eq_none_iff.symm

/-! ### Nodes -/

/-- A compact statement is the readable one less some characters; of a comment nothing stays. -/
theorem sublist_statement (unit : String) (level level' : Nat) (content : Statement)
    (position : Option Position) :
    (charsOf (pieces unit level (Compact.steps (.statement content position)))).Sublist
      (charsOf (pieces unit level' (Readable.steps (.statement content position)))) := by
  rw [Compact.pieces_statement, charsOf_append, charsOf_marks]
  cases content with
  | comment text => exact List.nil_sublist _
  | _ =>
      simp [Compact.statementText, Readable.steps, Readable.statement, Step.pieces, Step.levelAfter,
        charsOf_marks]

variable (unit : String)

mutual

/-- **A compact node is the readable one less some characters.** The compact layout writes no
margins, so its level does not matter. -/
theorem sublist_steps (level : Nat) {level' : Nat} (hl : 1 ≤ level') :
    ∀ node : Node, (charsOf (pieces unit level (Compact.steps node))).Sublist
      (charsOf (pieces unit level' (Readable.steps node)))
  | .statement content position => sublist_statement unit level level' content position
  | .block head children position => by
      cases hv : vanishes head children with
      | true =>
          rw [Compact.steps, if_pos hv]
          exact List.nil_sublist _
      | false =>
          cases hf : Readable.frame? head with
          | none =>
              have hh := (header?_eq_none_iff head).mpr hf
              simpa [Compact.steps, Readable.steps, hv, hh, hf] using
                sublist_all level hl "\n\n" children
          | some frame =>
              obtain ⟨header, hh⟩ : ∃ header, Compact.header? head = some header := by
                rw [← Option.ne_none_iff_exists', ne_eq, header?_eq_none_iff, hf]
                exact nofun
              obtain ⟨title, ht, hchars⟩ := Option.map_eq_some_iff.mp
                (Readable.charsOf_header unit level' hf)
              obtain ⟨hopen, hclose⟩ := sublist_braces unit level' hf
              have inner := sublist_all level (Nat.le_add_left 1 level') frame.separator children
              have block := (sublist_title _ hh ht).append (hopen.append (inner.append hclose))
              rw [Compact.pieces_block unit level position hv hh,
                Readable.pieces_block unit hl position hv hf]
              simp only [charsOf_append, charsOf_cons, charsOf_nil, charsOf_marks, chars_text,
                ← hchars, List.nil_append, List.append_nil]
              exact block.trans (List.sublist_append_right _ _)

/-- The readable layout also writes a separator between nodes. -/
theorem sublist_all (level : Nat) {level' : Nat} (hl : 1 ≤ level') (separator : String) :
    ∀ nodes : List Node, (charsOf (pieces unit level (Compact.all nodes))).Sublist
      (charsOf (pieces unit level' (Readable.separated separator nodes)))
  | [] => List.Sublist.refl _
  | [node] => by
      rw [Compact.all, Compact.all, List.append_nil, Readable.separated]
      exact sublist_steps level hl node
  | node :: next :: rest => by
      have first := sublist_steps level hl node
      have tail := sublist_all level hl separator (next :: rest)
      rw [Compact.pieces_all_cons, Readable.pieces_separated_cons unit hl, charsOf_append,
        charsOf_append, charsOf_cons]
      exact first.append (tail.trans (List.sublist_append_right _ _))

end

end Layout

/-! ### Texts -/

/-- **Compact printing only leaves out.** With any unit of indentation a tree is printed in both
layouts, and the compact text is the readable one less some characters. -/
theorem compact_is_sublist (options : Options) (node : Node) :
    ∃ short long, ((Printer.start options).print .compact node).2 = .ok short ∧
      ((Printer.start options).print .readable node).2 = .ok long ∧
      short.toList.Sublist long.toList ∧ short.length ≤ long.length := by
  have untracked (layout : Layout) : ((Printer.start options).print layout node).2
      = .ok (layout.text options.indentation node) := by
    rw [Printer.print_untracked _ layout node rfl]
    rfl
  have hsublist : (Layout.compact.text options.indentation node).toList.Sublist
      (Layout.readable.text options.indentation node).toList := by
    rw [Layout.text, Layout.text, String.toList_ofList, String.toList_ofList]
    exact Layout.sublist_steps options.indentation 1 (Nat.le_refl 1) node
  refine ⟨_, _, untracked .compact, untracked .readable, hsublist, ?_⟩
  rw [← String.length_toList, ← String.length_toList]
  exact hsublist.length_le

/-- Margins, blanks, a comment and the separators go. -/
example :
    let rule : Node := .block (.rule ["a", "b"]) [.statement (.declaration "color" "red") none] none
    let node : Node := .block (.media "print") [.statement (.comment "x") none, rule] none
    Layout.compact.text "  " node = "@media print\x7ba,b\x7bcolor:red;\x7d\x7d" ∧
      Layout.readable.text "  " node
        = "@media print \x7b\n  /*x*/\n\n  a,\n  b \x7b\n    color: red;\n  \x7d\n\x7d" := by
  constructor <;> rfl

end StylePrint
