import StylePrint.Proofs.Printing.Heading
import StylePrint.Proofs.Printing.Spacing
/-!
Where the nodes of the compact layout land. The layout drops comments, but their marks stay, so a
comment's mark shares its place with whatever is written next. `Compact.events` lists what happens
along the text, and `Compact.landings` says for each node with a mark that is no comment which text
stands before it and which comments were dropped since that text. Every other node writes something,
so the mappings at the place of a node are its own and those of these comments
(`Tracker.mem_along_iff_of_landing`).
-/

namespace StylePrint

open StylePrint.SourceMap StylePrint.Sheet

namespace Layout.Compact

/-! ### Events along the text -/

/-- What happens along the text of the compact layout. -/
inductive Event where
  /-- A comment is dropped. -/
  | dropped (position : Option Position)
  /-- A node begins: its heading is written, and perhaps what always follows it. -/
  | heading (position : Option Position) (text : String) (behind : Option String)
  /-- A block ends. -/
  | closing
  deriving DecidableEq, Repr

/-- What a statement does along the text. -/
def eventOf (position : Option Position) : Statement → Event
  | .comment _ => .dropped position
  | .declaration property value =>
    .heading position (caption (.declaration property value)) (some ";")
  | content => .heading position (caption content) none

mutual

/-- What a node does along the text. -/
def events : Node → List Event
  | .statement content position => [eventOf position content]
  | .block head children position =>
    if vanishes head children then []
    else match header? head with
      | none => eventsOfAll children
      | some header =>
        .heading position header (some "\x7b") :: (eventsOfAll children ++ [.closing])

/-- What nodes do along the text. -/
def eventsOfAll : List Node → List Event
  | [] => []
  | node :: rest => events node ++ eventsOfAll rest

end

/-- The pieces of an event. -/
def Event.pieces : Event → List Piece
  | .dropped position => position.toList.map .mark
  | .heading position text behind =>
    position.toList.map .mark ++ .text text :: behind.toList.map .text
  | .closing => [.text "\x7d"]

theorem pieces_eventOf (unit : String) (level : Nat) (position : Option Position)
    (content : Statement) :
    pieces unit level (steps (.statement content position))
      = (eventOf position content).pieces := by
  rw [pieces_statement]
  cases content with
  | comment text => exact List.append_nil _
  | _ => rfl

mutual

/-- The pieces of a node are those of its events. -/
theorem pieces_events (unit : String) (level : Nat) : ∀ node : Node,
    pieces unit level (steps node) = (events node).flatMap Event.pieces
  | .statement content position => by
      rw [pieces_eventOf, events, List.flatMap_singleton]
  | .block head children position => by
      cases hv : vanishes head children with
      | true =>
          rw [steps, events, if_pos hv, if_pos hv]
          rfl
      | false =>
          cases hh : header? head with
          | none =>
              simpa [steps, events, hv, hh] using pieces_eventsOfAll unit level children
          | some header =>
              rw [pieces_block unit level position hv hh, events, if_neg (by simp [hv]), hh,
                pieces_eventsOfAll unit level children]
              simp [Event.pieces]

theorem pieces_eventsOfAll (unit : String) (level : Nat) : ∀ nodes : List Node,
    pieces unit level (all nodes) = (eventsOfAll nodes).flatMap Event.pieces
  | [] => rfl
  | node :: rest => by
      rw [pieces_all_cons, eventsOfAll, List.flatMap_append, pieces_events unit level node,
        pieces_eventsOfAll unit level rest]

end

/-! ### Nodes that are kept -/

mutual

/-- The positions of the nodes that are no comments, in the order of the text, each with the heading
that stands at its mark. -/
def kept : Node → List (Position × String)
  | .statement (.comment _) _ => []
  | .statement content position => headed position (caption content)
  | .block head children position =>
    if vanishes head children then []
    else match header? head with
      | none => keptOfAll children
      | some header => headed position header ++ keptOfAll children

/-- The positions of those of the nodes that are no comments, with their headings. -/
def keptOfAll : List Node → List (Position × String)
  | [] => []
  | node :: rest => kept node ++ keptOfAll rest

end

/-- The position of an event that is no dropped comment, with its heading. -/
def Event.kept : Event → List (Position × String)
  | .dropped _ => []
  | .heading position text _ => headed position text
  | .closing => []

mutual

theorem flatMap_kept_events : ∀ node : Node, (events node).flatMap Event.kept = kept node
  | .statement content position => by
      rw [events, List.flatMap_singleton]
      cases content <;> rfl
  | .block head children position => by
      cases hv : vanishes head children with
      | true =>
          rw [events, kept, if_pos hv, if_pos hv]
          rfl
      | false =>
          cases hh : header? head with
          | none =>
              simpa [events, kept, hv, hh] using flatMap_kept_eventsOfAll children
          | some header =>
              simp [events, kept, hv, hh, flatMap_kept_eventsOfAll children, Event.kept]

theorem flatMap_kept_eventsOfAll :
    ∀ nodes : List Node, (eventsOfAll nodes).flatMap Event.kept = keptOfAll nodes
  | [] => rfl
  | node :: rest => by
      rw [eventsOfAll, List.flatMap_append, flatMap_kept_events node,
        flatMap_kept_eventsOfAll rest, keptOfAll]

end

/-! ### Events that write -/

/-- The characters that an event writes. -/
def Event.chars : Event → List Char
  | .dropped _ => []
  | .heading _ text behind => text.toList ++ (behind.elim [] String.toList)
  | .closing => ['\x7d']

/-- The position that an event marks. -/
def Event.position? : Event → Option Position
  | .dropped position => position
  | .heading position _ _ => position
  | .closing => none

theorem charsOf_pieces (event : Event) : charsOf event.pieces = event.chars := by
  cases event with
  | dropped position => cases position <;> rfl
  | heading position text behind =>
      cases position <;> cases behind <;> simp [Event.pieces, Event.chars]
  | closing => rfl

/-- Whether an event that is no dropped comment writes something. -/
def Event.Writes (event : Event) : Prop :=
  (∃ position, event = .dropped position) ∨ event.chars ≠ []

theorem writes_eventOf (position : Option Position) (content : Statement) :
    (eventOf position content).Writes := by
  cases content with
  | comment text => exact Or.inl ⟨position, rfl⟩
  | _ => exact Or.inr (by simp [eventOf, Event.chars, caption, atLine])

mutual

/-- Every node but a comment writes something. -/
theorem writes_events : ∀ node : Node, ∀ event ∈ events node, event.Writes
  | .statement content position => by
      intro event hevent
      rw [events, List.mem_singleton] at hevent
      rw [hevent]
      exact writes_eventOf position content
  | .block head children position => by
      intro event hevent
      rw [events] at hevent
      split at hevent
      · cases hevent
      · split at hevent
        · exact writes_eventsOfAll children event hevent
        · rcases List.mem_cons.mp hevent with rfl | hevent
          · exact Or.inr (by simp [Event.chars])
          · rcases List.mem_append.mp hevent with hevent | hevent
            · exact writes_eventsOfAll children event hevent
            · rw [List.mem_singleton.mp hevent]
              exact Or.inr (List.cons_ne_nil _ _)

theorem writes_eventsOfAll : ∀ nodes : List Node, ∀ event ∈ eventsOfAll nodes, event.Writes
  | [] => nofun
  | node :: rest => by
      intro event hevent
      rcases List.mem_append.mp hevent with hevent | hevent
      · exact writes_events node event hevent
      · exact writes_eventsOfAll rest event hevent

end

/-! ### Landings -/

/-- Where a node with a mark lands. -/
structure Landing where
  /-- The text before it. -/
  before : List Char
  /-- The marks of the comments dropped since that text was written. -/
  dropped : List Position
  position : Position
  heading : String
  deriving DecidableEq, Repr

/-- The landings along events, given the text written so far and the marks of the comments dropped
since. -/
def landingsFrom (before : List Char) (dropped : List Position) : List Event → List Landing
  | [] => []
  | .dropped position :: rest => landingsFrom before (dropped ++ position.toList) rest
  | .heading position text behind :: rest =>
    position.toList.map (⟨before, dropped, ·, text⟩)
      ++ landingsFrom (before ++ Event.chars (.heading position text behind)) [] rest
  | .closing :: rest => landingsFrom (before ++ Event.chars .closing) [] rest

/-- The landings of the nodes of a tree. -/
def landings (node : Node) : List Landing := landingsFrom [] [] (events node)

theorem map_landingsFrom (before : List Char) (dropped : List Position) (es : List Event) :
    (landingsFrom before dropped es).map (fun landing => (landing.position, landing.heading))
      = es.flatMap Event.kept := by
  induction es generalizing before dropped with
  | nil => rfl
  | cons event rest ih =>
      cases event with
      | dropped position => exact ih before _
      | heading position text behind =>
          rw [landingsFrom, List.map_append, ih]
          cases position <;> rfl
      | closing => exact ih _ []

/-- The landings are those of the nodes that are no comments, in order. -/
theorem map_landings (node : Node) :
    (landings node).map (fun landing => (landing.position, landing.heading)) = kept node := by
  rw [landings, map_landingsFrom, flatMap_kept_events]

/-- The text of events. -/
def textOf (es : List Event) : List Char := es.flatMap Event.chars

theorem charsOf_flatMap_pieces (es : List Event) :
    charsOf (es.flatMap Event.pieces) = textOf es := by
  induction es with
  | nil => rfl
  | cons event rest ih =>
      rw [List.flatMap_cons, charsOf_append, charsOf_pieces, ih]
      rfl

/-- Between the text written so far and a landing more may be written, and at the landing its
heading follows. -/
theorem split_of_mem_landingsFrom {before : List Char} {dropped : List Position} {es : List Event}
    {landing : Landing} (h : landing ∈ landingsFrom before dropped es) :
    ∃ written after, landing.before = before ++ written ∧
      textOf es = written ++ (landing.heading.toList ++ after) := by
  induction es generalizing before dropped with
  | nil => cases h
  | cons event rest ih =>
      cases event with
      | dropped position => exact ih h
      | heading position text behind =>
          rcases List.mem_append.mp h with h | h
          · obtain ⟨own, -, rfl⟩ := List.mem_map.mp h
            refine ⟨[], behind.elim [] String.toList ++ textOf rest, ?_, ?_⟩
            · exact (List.append_nil before).symm
            · exact List.append_assoc ..
          · obtain ⟨written, after, hbefore, htext⟩ := ih h
            refine ⟨Event.chars (.heading position text behind) ++ written, after, ?_, ?_⟩
            · rw [hbefore, List.append_assoc]
            · rw [textOf, List.flatMap_cons, List.append_assoc]
              exact congrArg _ htext
      | closing =>
          obtain ⟨written, after, hbefore, htext⟩ := ih h
          refine ⟨Event.chars .closing ++ written, after, ?_, ?_⟩
          · rw [hbefore, List.append_assoc]
          · rw [textOf, List.flatMap_cons, List.append_assoc]
            exact congrArg _ htext

end Layout.Compact

/-! ### Mappings at a landing -/

namespace Tracker

open Layout Layout.Compact

/-- An event's mark stands at the place reached, and what follows stands behind what it writes. -/
theorem along_event (k : Caret) (event : Event) (ps : List Piece) :
    along k (event.pieces ++ ps)
      = event.position?.toList.map (mappingAt k) ++ along (k.walk event.chars) ps := by
  cases event with
  | dropped position => cases position <;> rfl
  | heading position text behind =>
      cases position <;> cases behind <;> simp [Event.pieces, Event.chars, Event.position?, along]
  | closing => rfl

/-- Behind a text that is not empty, mappings stand at later places. -/
theorem generated_lt_of_mem_along {k : Caret} {cs : List Char} {ps : List Piece} {m : Mapping}
    (hne : cs ≠ []) (hroom : k.HasRoom (Text.units (cs ++ charsOf ps)))
    (hcolumn : 0 < k.column.toNat) (hm : m ∈ along (k.walk cs) ps) :
    k.place.order m.generated = .lt := by
  obtain ⟨more, position, rfl, hbegins⟩ := mem_along hm
  have hroom' : k.HasRoom (Text.units (cs ++ (untilMark ps ++ more))) :=
    hroom.mono (units_mono ((List.prefix_append_right_inj cs).mpr hbegins))
  have hlater := (Caret.before_walk (List.append_ne_nil_of_left_ne_nil hne _) hroom').place hcolumn
  rw [Caret.walk_append] at hlater
  exact hlater

section Landing

variable {before chars : List Char} {ps : List Piece} (hne : chars ≠ [])
  (hroom : (Caret.start.walk before).HasRoom (Text.units (chars ++ charsOf ps)))
include hne hroom

/-- At the place where something is written there are the marks made there and no later ones. -/
theorem mem_along_iff_here (own : Position) (dropped : List Position) (m : Mapping) :
    (m ∈ (dropped ++ [own]).map (mappingAt (Caret.start.walk before))
          ++ along ((Caret.start.walk before).walk chars) ps ∧
        m.generated = (Caret.start.walk before).place) ↔
      m ∈ (own :: dropped).map (mappingAt (Caret.start.walk before)) := by
  have hcolumn : 0 < (Caret.start.walk before).column.toNat :=
    Caret.column_pos_walk before (by decide)
  have hmarks : m ∈ (dropped ++ [own]).map (mappingAt (Caret.start.walk before))
      ↔ m ∈ (own :: dropped).map (mappingAt (Caret.start.walk before)) := by
    simp [or_comm]
  rw [List.mem_append, hmarks]
  constructor
  · rintro ⟨hm | hm, hplace⟩
    · exact hm
    · have hlater := generated_lt_of_mem_along hne hroom hcolumn hm
      exact absurd hplace.symm (Place.ne_of_order_lt hlater)
  · intro hm
    obtain ⟨position, -, rfl⟩ := List.mem_map.mp hm
    exact ⟨Or.inl hm, rfl⟩

/-- At a later place the marks made here are gone. -/
theorem mem_along_iff_later {written after : List Char} (hsplit : charsOf ps = written ++ after)
    (marks : List Position) (m : Mapping) :
    (m ∈ marks.map (mappingAt (Caret.start.walk before))
          ++ along ((Caret.start.walk before).walk chars) ps ∧
        m.generated = (Caret.start.walk (before ++ chars ++ written)).place) ↔
      m ∈ along ((Caret.start.walk before).walk chars) ps ∧
        m.generated = (Caret.start.walk (before ++ chars ++ written)).place := by
  have hcolumn : 0 < (Caret.start.walk before).column.toNat :=
    Caret.column_pos_walk before (by decide)
  have hlater : (Caret.start.walk before).place.order
      (Caret.start.walk (before ++ chars ++ written)).place = .lt := by
    have hwritten : chars ++ written <+: chars ++ charsOf ps := by
      rw [hsplit, ← List.append_assoc]
      exact List.prefix_append ..
    have hmove := (Caret.before_walk (List.append_ne_nil_of_left_ne_nil hne written)
      (hroom.mono (units_mono hwritten))).place hcolumn
    rwa [← Caret.walk_append, ← List.append_assoc] at hmove
  rw [List.mem_append]
  constructor
  · rintro ⟨hm | hm, hplace⟩
    · obtain ⟨position, -, rfl⟩ := List.mem_map.mp hm
      exact absurd hplace (Place.ne_of_order_lt hlater)
    · exact ⟨hm, hplace⟩
  · rintro ⟨hm, hplace⟩
    exact ⟨Or.inr hm, hplace⟩

end Landing

/-- **The mappings at the place of a landing** are that of its node and those of the comments
dropped directly before it. -/
theorem mem_along_iff_of_landing {es : List Event} (hwrites : ∀ event ∈ es, event.Writes)
    {before : List Char} {dropped : List Position} {landing : Landing}
    (hlanding : landing ∈ landingsFrom before dropped es)
    (hroom : (Caret.start.walk before).HasRoom (Text.units (textOf es))) (m : Mapping) :
    (m ∈ dropped.map (mappingAt (Caret.start.walk before))
          ++ along (Caret.start.walk before) (es.flatMap Event.pieces) ∧
        m.generated = (Caret.start.walk landing.before).place) ↔
      m ∈ (landing.position :: landing.dropped).map
        (mappingAt (Caret.start.walk landing.before)) := by
  induction es generalizing before dropped with
  | nil => cases hlanding
  | cons event rest ih =>
      obtain ⟨hevent, hrest⟩ := List.forall_mem_cons.mp hwrites
      -- a landing behind an event that writes is one of the rest
      have later : event.chars ≠ [] → landing ∈ landingsFrom (before ++ event.chars) [] rest →
          ((m ∈ (dropped ++ event.position?.toList).map (mappingAt (Caret.start.walk before))
              ++ along ((Caret.start.walk before).walk event.chars) (rest.flatMap Event.pieces) ∧
            m.generated = (Caret.start.walk landing.before).place) ↔
          m ∈ (landing.position :: landing.dropped).map
            (mappingAt (Caret.start.walk landing.before))) := by
        intro hne hlater
        obtain ⟨written, after, hbefore, htext⟩ := split_of_mem_landingsFrom hlater
        have hsplit : charsOf (rest.flatMap Event.pieces)
            = written ++ (landing.heading.toList ++ after) :=
          (charsOf_flatMap_pieces rest).trans htext
        have hpieces : (Caret.start.walk before).HasRoom
            (Text.units (event.chars ++ charsOf (rest.flatMap Event.pieces))) := by
          rw [charsOf_flatMap_pieces]
          exact hroom
        have hbehind : (Caret.start.walk (before ++ event.chars)).HasRoom
            (Text.units (textOf rest)) := by
          rw [Caret.walk_append]
          apply Caret.HasRoom.walk
          rw [← Text.units_append]
          exact hroom
        have hrest := ih hrest hlater hbehind
        rw [Caret.walk_append, List.map_nil, List.nil_append] at hrest
        rw [← hrest, hbefore]
        exact mem_along_iff_later hne hpieces hsplit _ m
      rw [List.flatMap_cons, along_event, ← List.append_assoc, ← List.map_append]
      cases event with
      | dropped position => exact ih hrest hlanding hroom
      | heading position text behind =>
          have hne : Event.chars (.heading position text behind) ≠ [] :=
            hevent.resolve_left (by simp)
          rcases List.mem_append.mp hlanding with hown | hlater
          · obtain ⟨own, hposition, rfl⟩ := List.mem_map.mp hown
            rw [Option.mem_toList.mp hposition]
            refine mem_along_iff_here hne ?_ own dropped m
            rw [charsOf_flatMap_pieces]
            exact hroom
          · exact later hne hlater
      | closing => exact later (List.cons_ne_nil _ _) hlanding

end Tracker

end StylePrint
