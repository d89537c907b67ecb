import StylePrint.Proofs.Printing.Heading
/-!
Where a tracker refuses to go on. A mark is refused for its own position alone, whatever was printed
before it (`Tracker.mark_eq`). So a tracker follows pieces to the end when it accepts the positions
of all their marks, and else stops at the first position it refuses (`Tracker.follow_accepted`,
`Tracker.follow_refused`). Which positions a tree marks does not depend on the layout
(`Layout.positions_headings`).
-/

namespace StylePrint

open StylePrint.SourceMap StylePrint.Sheet StylePrint.Layout

/-! ### Positions that are refused -/

namespace Sheet.Position

/-- Whether a position starts outside of any text: lines and columns are counted from one. -/
def Refused (position : Position) : Prop :=
  position.start.line = 0 ∨ position.start.column = 0

instance : DecidablePred Refused := fun position =>
  inferInstanceAs (Decidable (position.start.line = 0 ∨ position.start.column = 0))

/-- Why a position is refused at a place of the text; its column is looked at first. -/
def refusal (position : Position) (place : Place) : MappingFault :=
  if position.start.column = 0 then
    .sourceColumnZero position.start.line position.start.column
  else .sourceLineZero place

end Sheet.Position

/-! ### The positions of a tree -/

namespace Sheet.Node

mutual

/-- The positions of a node and of the nodes in it, in the order of the text. A stylesheet has none
of its own, and a rule without anything inside none at all. -/
def positions : Node → List Position
  | .statement _ position => position.toList
  | .block (.stylesheet _ _) children _ => positionsOfAll children
  | .block (.rule _) [] _ => []
  | .block _ children position => position.toList ++ positionsOfAll children

/-- The positions of nodes, one after another. -/
def positionsOfAll : List Node → List Position
  | [] => []
  | node :: rest => node.positions ++ positionsOfAll rest

end

end Sheet.Node

namespace Layout

theorem map_headed (position : Option Position) (heading : String) :
    (headed position heading).map Prod.fst = position.toList := by
  cases position <;> rfl

/-- Only a stylesheet has no title. -/
theorem title?_eq_none_iff (layout : Layout) (margin : String) (head : Head) :
    layout.title? margin head = none ↔ ∃ source errors, head = .stylesheet source errors := by
  cases layout <;> cases head <;> simp [title?, Readable.title?, Compact.header?]

/-- The positions of a block that is neither a stylesheet nor an empty rule. -/
theorem positions_block {head : Head} {children : List Node} (position : Option Position)
    (hhead : ¬∃ source errors, head = .stylesheet source errors)
    (hv : vanishes head children = false) :
    (Node.block head children position).positions
      = position.toList ++ Node.positionsOfAll children := by
  cases head with
  | stylesheet source errors => exact absurd ⟨source, errors, rfl⟩ hhead
  | rule selectors =>
      cases children with
      | nil => cases hv
      | cons node rest => rw [Node.positions] <;> nofun
  | _ => rw [Node.positions] <;> nofun

variable (layout : Layout) (unit : String)

mutual

/-- **Every layout marks the same positions, in the same order.** -/
theorem positions_headings (level : Nat) :
    ∀ node : Node, (layout.headings unit level node).map Prod.fst = node.positions
  | .statement content position => by
      rw [headings, map_headed, Node.positions]
  | .block head children position => by
      rw [headings]
      cases hv : vanishes head children with
      | true =>
          cases head <;> cases children <;> cases hv
          rfl
      | false =>
          rw [if_neg Bool.false_ne_true]
          cases ht : layout.title? (marginAt unit level) head with
          | none =>
              obtain ⟨source, errors, rfl⟩ := (title?_eq_none_iff ..).mp ht
              exact positions_headingsOfAll level children
          | some title =>
              have hhead : ¬∃ source errors, head = .stylesheet source errors := by
                rw [← title?_eq_none_iff layout (marginAt unit level), ht]
                exact nofun
              rw [positions_block position hhead hv, List.map_append, map_headed,
                positions_headingsOfAll (level + 1) children]

theorem positions_headingsOfAll (level : Nat) :
    ∀ nodes : List Node,
      (headingsOfAll layout unit level nodes).map Prod.fst = Node.positionsOfAll nodes
  | [] => rfl
  | node :: rest => by
      rw [headingsOfAll, List.map_append, positions_headings level node,
        positions_headingsOfAll level rest, Node.positionsOfAll]

end

end Layout

/-! ### Trackers that stop -/

namespace Tracker

/-- What a mark comes to: it is refused with its position or taken with it. -/
theorem mark_eq {t : Tracker} (hline : t.line ≠ 0) (position : Position) :
    t.mark position = if position.Refused then .error (position.refusal t.caret.place)
      else .ok (t.marked position) := by
  split
  · rename_i hrefused
    by_cases hc : position.start.column = 0
    · simp [mark, Position.refusal, hc]
    · have hl : position.start.line = 0 := hrefused.resolve_right hc
      simp [mark, Draft.add, Proposal.check, Except.map, bind, Except.bind, Position.refusal, caret,
        Caret.place, hc, hl, hline]
  · rename_i haccepted
    rw [Position.Refused, not_or] at haccepted
    exact mark_eq_ok.mpr ⟨⟨haccepted.2, haccepted.1, hline⟩, rfl⟩

/-- A tracker never gets to line zero. -/
theorem line_advance_ne_zero {t : Tracker} (hline : t.line ≠ 0) (content : String) :
    (t.advance content).line ≠ 0 := by
  intro h
  have hpos : t.line.toNat ≠ 0 := fun h0 => hline (UInt32.toNat_inj.mp h0)
  have hzero : (saturate (t.line.toNat + content.toList.count '\n')).toNat = 0 :=
    congrArg UInt32.toNat h
  rw [toNat_saturate] at hzero
  omega

/-- A tracker that accepts all positions among pieces follows the pieces to the end. -/
theorem follow_accepted {ps : List Piece} {hs : List (Position × String)} (h : Heads ps hs)
    (haccepted : ∀ heading ∈ hs, ¬heading.1.Refused) {t : Tracker} (hline : t.line ≠ 0) :
    ∃ t', t.follow ps = .ok t' := by
  induction ps generalizing t hs with
  | nil => exact ⟨t, rfl⟩
  | cons p ps ih =>
      cases p with
      | text content => exact ih h haccepted (line_advance_ne_zero hline content)
      | mark position =>
          cases h with
          | cons hfirst hrest =>
              rename_i heading later
              have hposition : ¬position.Refused := by
                rw [show position = heading.1 from hfirst.1]
                exact haccepted heading (List.mem_cons_self ..)
              rw [follow, mark_eq hline, if_neg hposition]
              exact ih hrest (fun g hg => haccepted g (List.mem_cons_of_mem _ hg)) hline

/-- A tracker stops at the first position it refuses, at the place where that position's heading
begins. -/
theorem follow_refused {ps : List Piece} {earlier later : List (Position × String)}
    {position : Position} {heading : String}
    (h : Heads ps (earlier ++ (position, heading) :: later))
    (haccepted : ∀ heading ∈ earlier, ¬heading.1.Refused) (hrefused : position.Refused)
    {t : Tracker} (hline : t.line ≠ 0) :
    ∃ before after, charsOf ps = before ++ after ∧ heading.toList <+: after ∧
      t.follow ps = .error (position.refusal (t.caret.walk before).place) := by
  induction ps generalizing t earlier with
  | nil => cases earlier <;> cases h
  | cons p ps ih =>
      cases p with
      | text content =>
          obtain ⟨before, after, hsplit, hbegins, hfollow⟩ :=
            ih h haccepted (line_advance_ne_zero hline content)
          refine ⟨content.toList ++ before, after, by simp [hsplit], hbegins, ?_⟩
          rw [follow, hfollow, caret_advance, Caret.walk_append]
      | mark position' =>
          cases earlier with
          | nil =>
              cases h with
              | cons hfirst hrest =>
                  obtain ⟨hposition, hbegins⟩ := hfirst
                  obtain rfl : position' = position := hposition
                  refine ⟨[], charsOf ps, rfl, hbegins, ?_⟩
                  rw [follow, mark_eq hline, if_pos hrefused]
                  rfl
          | cons first earlier =>
              cases h with
              | cons hfirst hrest =>
                  have hposition : ¬position'.Refused := by
                    rw [show position' = first.1 from hfirst.1]
                    exact haccepted first (List.mem_cons_self ..)
                  obtain ⟨before, after, hsplit, hbegins, hfollow⟩ := ih (t := t.marked position')
                    hrest (fun g hg => haccepted g (List.mem_cons_of_mem _ hg)) hline
                  refine ⟨before, after, hsplit, hbegins, ?_⟩
                  rw [follow, mark_eq hline, if_neg hposition]
                  exact hfollow

end Tracker

end StylePrint
