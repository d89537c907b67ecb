import StylePrint.Proofs.Printing.Refusal
import StylePrint.Proofs.Session.Printing
/-!
Making a map does not change the text. A printer with a new tracker writes what it writes without
one (`Printer.outcome_accepted`), unless a position of the tree is refused; then it fails for the
first such position in the text (`Printer.outcome_refused`). A session that is asked for a map ends
with the same draft or the same error whatever the form of the map (`mapped_eq_drafted`). Together
these are `tracking_is_transparent`.
-/

namespace StylePrint

open StylePrint.SourceMap StylePrint.Sheet

/-! ### Printing with and without a tracker -/

namespace Printer

variable (p : Printer) (options : Options) (layout : Layout) (node : Node)

/-- With a tracker a node is printed as without one, unless the tracker refuses one of its
pieces. -/
theorem outcome_attached (t : Tracker) :
    ((p.attach t).print layout node).2
      = (t.follow (Layout.pieces p.unit 1 (layout.steps node))).map
          fun _ => layout.text p.unit node := by
  cases hf : t.follow (Layout.pieces p.unit 1 (layout.steps node)) with
  | error fault =>
      obtain ⟨q, hprint, -⟩ := p.print_refused t layout node hf
      rw [hprint]
      rfl
  | ok t' =>
      rw [p.print_tracked t layout node hf]
      rfl

variable {p options layout node} in
/-- A printer prints a tree with success when the new tracker on it follows the tree to the end, and
then it gives the text of the tree. -/
theorem follow_of_outcome {code : String}
    (h : ((p.attach (Tracker.start options)).print layout node).2 = .ok code) :
    (∃ t, (Tracker.start options).follow (Layout.pieces p.unit 1 (layout.steps node)) = .ok t) ∧
      layout.text p.unit node = code := by
  rw [outcome_attached] at h
  cases hfollow : (Tracker.start options).follow
      (Layout.pieces p.unit 1 (layout.steps node)) with
  | error fault =>
      rw [hfollow] at h
      cases h
  | ok t =>
      rw [hfollow] at h
      exact ⟨⟨t, rfl⟩, Except.ok.inj h⟩

variable {p options layout node} in
/-- Where printing fails, the new tracker refuses to follow the tree. -/
theorem follow_of_outcome_error {fault : MappingFault}
    (h : ((p.attach (Tracker.start options)).print layout node).2 = .error fault) :
    (Tracker.start options).follow (Layout.pieces p.unit 1 (layout.steps node)) = .error fault := by
  rw [outcome_attached] at h
  cases hfollow : (Tracker.start options).follow
      (Layout.pieces p.unit 1 (layout.steps node)) with
  | error other =>
      rw [hfollow] at h
      exact congrArg Except.error (Except.error.inj h)
  | ok t =>
      rw [hfollow] at h
      cases h

theorem line_start_ne_zero : (Tracker.start options).line ≠ 0 :=
  (by decide : (1 : UInt32) ≠ 0)

/-- Where no position of a tree is refused, a new tracker does not change what is printed. -/
theorem outcome_accepted (h : ∀ position ∈ node.positions, ¬position.Refused) :
    ((p.attach (Tracker.start options)).print layout node).2 = .ok (layout.text p.unit node) := by
  have haccepted : ∀ heading ∈ layout.headings p.unit 1 node, ¬heading.1.Refused := by
    intro heading hheading
    rw [← Layout.positions_headings layout p.unit 1 node] at h
    exact h _ (List.mem_map_of_mem hheading)
  obtain ⟨t, hfollow⟩ := Tracker.follow_accepted (Layout.heads_layout layout p.unit node) haccepted
    (line_start_ne_zero options)
  rw [outcome_attached, hfollow]
  rfl

/-- Where a position of a tree is refused, printing fails for the first one, at the place where its
heading begins. -/
theorem outcome_refused {earlier later : List (Position × String)} {position : Position}
    {heading : String}
    (hsplit : layout.headings p.unit 1 node = earlier ++ (position, heading) :: later)
    (hearlier : ∀ other ∈ earlier, ¬other.1.Refused) (hrefused : position.Refused) :
    ∃ before after, (layout.text p.unit node).toList = before ++ after ∧
      heading.toList <+: after ∧ ((p.attach (Tracker.start options)).print layout node).2
        = .error (position.refusal (Caret.start.walk before).place) := by
  have hheads := Layout.heads_layout layout p.unit node
  rw [hsplit] at hheads
  obtain ⟨before, after, htext, hbegins, hfollow⟩ :=
    Tracker.follow_refused hheads hearlier hrefused (line_start_ne_zero options)
  refine ⟨before, after, ?_, hbegins, ?_⟩
  · rw [Layout.text, String.toList_ofList, htext]
  · rw [outcome_attached, hfollow]
    rfl

/-- Among headings of which one is refused, there is a first one. -/
theorem exists_first_refused {headings : List (Position × String)}
    (h : ∃ position ∈ headings.map Prod.fst, position.Refused) :
    ∃ earlier position heading later, headings = earlier ++ (position, heading) :: later ∧
      (∀ other ∈ earlier, ¬other.1.Refused) ∧ position.Refused := by
  induction headings with
  | nil =>
      obtain ⟨position, hposition, -⟩ := h
      cases hposition
  | cons first rest ih =>
      by_cases hfirst : first.1.Refused
      · exact ⟨[], first.1, first.2, rest, rfl, nofun, hfirst⟩
      · obtain ⟨position, hposition, hrefused⟩ := h
        rcases List.mem_cons.mp hposition with rfl | hposition
        · exact absurd hrefused hfirst
        · obtain ⟨earlier, position, heading, later, rfl, hearlier, hrefused⟩ :=
            ih ⟨position, hposition, hrefused⟩
          exact ⟨first :: earlier, position, heading, later, rfl,
            List.forall_mem_cons.mpr ⟨hfirst, hearlier⟩, hrefused⟩

/-- Printing with a new tracker fails exactly when a position of the tree is refused. -/
theorem outcome_error_iff :
    (∃ fault, ((p.attach (Tracker.start options)).print layout node).2 = .error fault) ↔
      ∃ position ∈ node.positions, position.Refused := by
  constructor
  · rintro ⟨fault, hfault⟩
    by_contra hnone
    rw [outcome_accepted p options layout node
      fun position hposition hrefused => hnone ⟨position, hposition, hrefused⟩] at hfault
    cases hfault
  · intro h
    rw [← Layout.positions_headings layout p.unit 1 node] at h
    obtain ⟨earlier, position, heading, later, hsplit, hearlier, hrefused⟩ := exists_first_refused h
    obtain ⟨before, after, -, -, hfault⟩ :=
      outcome_refused p options layout node hsplit hearlier hrefused
    exact ⟨_, hfault⟩

end Printer

/-! ### Maps in either form -/

/-- What printing a node with a map comes to, less the text: the draft of the map or an error. The
form of the map does not matter here. -/
def drafted (options : Options) (node : Node) : Reading (Except PrintError Draft) :=
  match (Tracker.start options).follow
      (Layout.pieces options.indentation 1 (options.layout.steps node)) with
  | .error fault => return .error (.ofMapping fault)
  | .ok tracker => do
    let (tracker, fault) ← tracker.applyMaps
    match fault with
    | some fault => return .error (.ofApply fault)
    | none => return .ok tracker.draft

variable {options : Options} {node : Node}

/-- A map is handed over with the text, in the form asked for. -/
theorem mapped_eq_drafted :
    mapped options node = (drafted options node >>= fun outcome => pure (outcome.map fun draft =>
      ⟨options.layout.text options.indentation node,
        some (Session.mapOf options.sourcemap draft)⟩)) := by
  unfold mapped drafted
  cases (Tracker.start options).follow
      (Layout.pieces options.indentation 1 (options.layout.steps node)) with
  | error fault => rfl
  | ok t =>
      simp only [Reading.bind_assoc]
      congr 1
      funext applied
      obtain ⟨applied, fault⟩ := applied
      cases fault <;> rfl

/-- With a map asked for, a tree is printed with its draft in that form. -/
theorem value_stringify_of_wantsMap (h : options.wantsMap = true) (reader : Reader) :
    (stringify options (some node)).value reader
      = ((drafted options node).value reader).map fun draft =>
        ⟨options.layout.text options.indentation node,
          some (Session.mapOf options.sourcemap draft)⟩ := by
  rw [stringify_of_wantsMap h, mapped_eq_drafted, Reading.value_bind]
  rfl

/-- Where printing with a new tracker fails, there is no draft either. -/
theorem value_drafted_of_error {fault : MappingFault}
    (h : (((Printer.start options).attach (Tracker.start options)).print options.layout node).2
      = .error fault) (reader : Reader) :
    (drafted options node).value reader = .error (.ofMapping fault) := by
  have hfollow : (Tracker.start options).follow
      (Layout.pieces options.indentation 1 (options.layout.steps node)) = .error fault :=
    Printer.follow_of_outcome_error h
  rw [drafted, hfollow]
  rfl

/-! ### Transparency -/

/-- **Tracking does not change the text, and fails exactly at positions outside of any text.**
Without a tracker a tree is always printed. With a new one printing fails exactly when a position of
the tree begins at line or column zero, with the fault of the first such position in the text, at
the place where its heading begins; otherwise it gives the same text. So a session always answers
with this text when no map is asked for; and when one is asked for, it answers with this text and
one and the same draft, as it is or written down, or else in both forms with the same error. -/
theorem tracking_is_transparent (options : Options) (node : Node) :
    let printer := Printer.start options
    let headings := options.layout.headings options.indentation 1 node
    let tracked := ((printer.attach (Tracker.start options)).print options.layout node).2
    let answer (form : MapForm) (reader : Reader) :=
      (stringify { options with sourcemap := form } (some node)).value reader
    headings.map Prod.fst = node.positions ∧
      ∃ code, (printer.print options.layout node).2 = .ok code ∧
        ((∃ fault, tracked = .error fault) ↔ ∃ position ∈ node.positions, position.Refused) ∧
        ((∀ position ∈ node.positions, ¬position.Refused) → tracked = .ok code) ∧
        (∀ earlier position heading later,
          headings = earlier ++ (position, heading) :: later →
          (∀ other ∈ earlier, ¬other.1.Refused) → position.Refused →
          ∃ before after, code.toList = before ++ after ∧ heading.toList <+: after ∧
            tracked = .error (position.refusal (Caret.start.walk before).place)) ∧
        ∀ reader, answer .none reader = .ok ⟨code, none⟩ ∧
          ∃ outcome : Except PrintError Draft,
            (∀ fault, tracked = .error fault → outcome = .error (.ofMapping fault)) ∧
            answer .draft reader = outcome.map (fun draft => ⟨code, some (.draft draft)⟩) ∧
            answer .written reader
              = outcome.map fun draft => ⟨code, some (.written draft.finish)⟩ := by
  intro printer headings tracked answer
  refine ⟨Layout.positions_headings .., options.layout.text options.indentation node, ?_,
    printer.outcome_error_iff .., printer.outcome_accepted options options.layout node, ?_, ?_⟩
  · rw [printer.print_untracked options.layout node rfl]
    rfl
  · intro earlier position heading later hsplit hearlier hrefused
    exact printer.outcome_refused options options.layout node hsplit hearlier hrefused
  · intro reader
    refine ⟨?_, (drafted options node).value reader, ?_, ?_, ?_⟩
    · show (stringify _ _).value reader = _
      rw [stringify_of_not_wantsMap rfl]
      rfl
    · intro fault hfault
      exact value_drafted_of_error hfault reader
    · exact value_stringify_of_wantsMap rfl reader
    · exact value_stringify_of_wantsMap rfl reader

end StylePrint
