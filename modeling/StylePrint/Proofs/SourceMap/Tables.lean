import Mathlib.Data.List.Forall2
import StylePrint.Proofs.SourceMap.Chaining
/-!
The tables of a draft. Calls on a draft may be refused, and a refused call leaves the draft as it is
(`Draft.after`); what calls lead to, refused or not, is a draft that can be reached by calls that are
taken (`Draft.reachable_run`). One call maintains the tables mapping by mapping and another builds
them anew, and both keep to one rule: a table lists what the mappings mention, each entry once, in
order of first use (`Draft.Sound.sources_eq`). Together this is `Draft.tables_describe_mappings`.
-/

namespace StylePrint.SourceMap

/-! ### Order of first use -/

/-- An entry is added to a table of first uses when it is used next. -/
theorem addNew_eraseDups {α : Type} [DecidableEq α] (xs : List α) (x : α) :
    addNew xs.eraseDups x = (xs ++ [x]).eraseDups := by
  have hmem : x ∈ xs.eraseDups ↔ x ∈ xs := List.mem_eraseDups
  rw [List.eraseDups_append]
  unfold addNew
  by_cases hx : x ∈ xs
  · rw [if_pos (hmem.mpr hx)]
    simp [List.removeAll, hx]
  · rw [if_neg (hmem.not.mpr hx)]
    simp [List.removeAll, List.eraseDups_cons, hx]

/-- Entries added one by one stand in order of first use, each once. -/
theorem foldl_addNew_nil {α : Type} [DecidableEq α] (xs : List α) :
    xs.foldl addNew [] = xs.eraseDups := by
  induction xs using List.reverseRecOn with
  | nil => rfl
  | append_singleton xs x ih =>
      rw [List.foldl_append, ih]
      exact addNew_eraseDups xs x

/-! ### Mappings -/

/-- Whether the parts of a mapping go together: lines begin at one, a source goes with a place in it
and the other way round, and a name only with both. -/
structure Mapping.Consistent (m : Mapping) : Prop where
  line : 1 ≤ m.generated.line.toNat
  source_iff : m.source.isSome ↔ m.sourcePlace.isSome
  sourceLine : ∀ place ∈ m.sourcePlace, 1 ≤ place.line.toNat
  name : m.name.isSome → m.sourcePlace.isSome

theorem Mapping.Placed.consistent {m : Mapping} (h : m.Placed) : m.Consistent := by
  obtain ⟨generated, origin⟩ := m
  constructor
  · exact h.line
  · cases origin <;> simp [Mapping.source, Mapping.sourcePlace]
  · intro place hplace
    obtain ⟨found, hfound, rfl⟩ := Option.map_eq_some_iff.mp hplace
    exact h.sourceLine found hfound
  · cases origin <;> simp [Mapping.name, Mapping.sourcePlace]

/-- A proposal that is taken says all there is to the mapping. -/
theorem Proposal.parts_of_check {proposal : Proposal} {m : Mapping}
    (h : proposal.check = .ok m) :
    m.generated = proposal.generated ∧ m.source = proposal.source ∧
      m.sourcePlace = proposal.sourcePlace ∧ m.name = proposal.name := by
  obtain ⟨generated, sourcePlace, source, name⟩ := proposal
  unfold Proposal.check at h
  split at h
  · cases h
  · cases sourcePlace with
    | some place =>
        simp only at h
        split at h
        · cases h
        · cases source with
          | some source =>
              obtain rfl := Except.ok.inj h
              exact ⟨rfl, rfl, rfl, rfl⟩
          | none => cases h
    | none =>
        simp only at h
        split at h
        · cases h
        · rename_i hnone
          obtain rfl := Except.ok.inj h
          obtain ⟨hsource, hname⟩ := not_or.mp hnone
          refine ⟨rfl, ?_, rfl, ?_⟩
          · exact (Option.not_isSome_iff_eq_none.mp hsource).symm
          · exact (Option.not_isSome_iff_eq_none.mp hname).symm

namespace Draft

/-! ### Calls -/

/-- What a caller may ask of a draft. -/
inductive Call where
  | add (proposal : Proposal)
  | setContent (source : String) (content : Option String)
  /-- Sends the mappings of `file` on through a written map. -/
  | chain (raw : RawMap) (file : String) (directory : Option String)

/-- The draft behind a call, or why the call is refused. -/
def call (draft : Draft) : Call → Except MapError Draft
  | .add proposal => (draft.add proposal).mapError .mapping
  | .setContent source content => .ok (draft.setContent source content)
  | .chain raw file directory =>
    (Index.ofRaw raw).map fun index => draft.chain index file directory

/-- The draft that is left by a call, refused or not. -/
def after (draft : Draft) (request : Call) : Draft :=
  match draft.call request with
  | .ok next => next
  | .error _ => draft

/-- The draft that calls leave, one after another. -/
def run (draft : Draft) (calls : List Call) : Draft :=
  calls.foldl after draft

/-- A call that is taken is a step. -/
theorem step_of_call {draft next : Draft} {request : Call} (h : draft.call request = .ok next) :
    Step draft next := by
  cases request with
  | add proposal =>
      rw [call] at h
      cases hadd : draft.add proposal with
      | error fault =>
          rw [hadd] at h
          cases h
      | ok added =>
          rw [hadd] at h
          obtain rfl := Except.ok.inj h
          exact .add hadd
  | setContent source content =>
      obtain rfl := Except.ok.inj h
      exact .setContent source content
  | chain raw file directory =>
      obtain ⟨index, hindex, rfl⟩ := Except.map_eq_ok.mp h
      exact .chain file directory hindex

theorem reachable_after {file sourceRoot : Option String} {draft : Draft}
    (h : Reachable file sourceRoot draft) (request : Call) :
    Reachable file sourceRoot (draft.after request) := by
  unfold after
  cases hcall : draft.call request with
  | error fault => exact h
  | ok next => exact h.next (step_of_call hcall)

/-- **Calls, refused or not, lead from a draft that can be reached to one that can.** -/
theorem reachable_run {file sourceRoot : Option String} {draft : Draft}
    (h : Reachable file sourceRoot draft) (calls : List Call) :
    Reachable file sourceRoot (draft.run calls) := by
  induction calls generalizing draft with
  | nil => exact h
  | cons request calls ih => exact ih (reachable_after h request)

/-- Adding either leaves the draft as it is or adds the mapping that was proposed at the end. -/
theorem after_add (draft : Draft) (proposal : Proposal) :
    (∃ fault, draft.add proposal = .error fault ∧ draft.after (.add proposal) = draft) ∨
      ∃ m : Mapping, draft.add proposal = .ok (draft.record m) ∧
        draft.after (.add proposal) = draft.record m ∧
        m.generated = proposal.generated ∧ m.source = proposal.source ∧
        m.sourcePlace = proposal.sourcePlace ∧ m.name = proposal.name := by
  cases hcheck : proposal.check with
  | error fault =>
      have hadd : draft.add proposal = .error fault := by
        rw [add, hcheck]
        rfl
      left
      refine ⟨fault, hadd, ?_⟩
      rw [after, call, hadd]
      rfl
  | ok m =>
      have hadd : draft.add proposal = .ok (draft.record m) := by
        rw [add, hcheck]
        rfl
      right
      refine ⟨m, hadd, ?_, Proposal.parts_of_check hcheck⟩
      rw [after, call, hadd]
      rfl

/-! ### Tables -/

theorem Sound.sources_eq {draft : Draft} (h : draft.Sound) :
    draft.sources = (draft.mappings.toList.filterMap Mapping.source).eraseDups := by
  rw [h.sources, sourcesOf, foldl_addNew_nil]

theorem Sound.names_eq {draft : Draft} (h : draft.Sound) :
    draft.names = (draft.mappings.toList.filterMap Mapping.name).eraseDups := by
  rw [h.names, namesOf, foldl_addNew_nil]

/-! ### Chaining -/

/-- A mapping of another source is not sent on. -/
theorem through_of_source_ne (index : Index) {file : String} (directory : Option String)
    {m : Mapping} (h : m.source ≠ some file) : m.through index file directory = m := by
  obtain ⟨generated, origin⟩ := m
  cases origin with
  | none => rfl
  | some origin =>
      have hother : origin.source ≠ file := by
        rintro rfl
        exact h rfl
      simp only [Mapping.through, Option.map_some, reroute, if_neg hother]

/-- Chaining sends mappings on one by one, each where it stands. -/
theorem forall₂_chain (draft : Draft) (index : Index) (file : String) (directory : Option String) :
    List.Forall₂ (fun old new => new.generated = old.generated ∧
        (old.source ≠ some file → new = old))
      draft.mappings.toList (draft.chain index file directory).mappings.toList := by
  rw [mappings_chain, List.forall₂_map_right_iff, List.forall₂_same]
  intro m _
  constructor
  · exact m.generated_through index file directory
  · intro hsource
    exact through_of_source_ne index directory hsource

/-- **The tables of a draft always describe its mappings.** Take the draft that any calls lead to
from an empty one, whether they are refused or not.

* The parts of each of its mappings go together.
* Its sources are those of its mappings, each once, in order of first use, and so are its names.
* A proposal that is refused leaves the whole draft as it is; one that is taken becomes the last
  mapping as it was proposed.
* Whatever decoded map is chained, of whatever file and directory, each mapping stays where it
  stands, in the list and in the text, and does not change at all when its source is another one. -/
theorem tables_describe_mappings (file sourceRoot : Option String) (calls : List Call) :
    let draft := Draft.run { file, sourceRoot } calls
    (∀ m ∈ draft.mappings.toList, m.Consistent) ∧
      draft.sources = (draft.mappings.toList.filterMap Mapping.source).eraseDups ∧
      draft.names = (draft.mappings.toList.filterMap Mapping.name).eraseDups ∧
      (∀ proposal,
        (∃ fault, draft.add proposal = .error fault ∧ draft.after (.add proposal) = draft) ∨
          ∃ m : Mapping, draft.add proposal = .ok (draft.record m) ∧
            draft.after (.add proposal) = draft.record m ∧
            m.generated = proposal.generated ∧ m.source = proposal.source ∧
            m.sourcePlace = proposal.sourcePlace ∧ m.name = proposal.name) ∧
      ∀ index file directory,
        List.Forall₂ (fun old new => new.generated = old.generated ∧
            (old.source ≠ some file → new = old))
          draft.mappings.toList (draft.chain index file directory).mappings.toList := by
  intro draft
  have hsound : draft.Sound := (reachable_run .empty calls).sound
  refine ⟨?_, hsound.sources_eq, hsound.names_eq, draft.after_add, draft.forall₂_chain⟩
  intro m hm
  exact (hsound.placed m hm).consistent

/-- A refused proposal between two that are taken, and then an input map whose line wraps around to
the greatest word: the two mappings end up in one source. -/
theorem tables_describe_mappings_of_wrapped :
    let input : RawMap := ⟨3, ["../b.css"], [], "AADA", none, none, none⟩
    let calls : List Call := [
      .add ⟨⟨1, 0⟩, some ⟨1, 0⟩, some "css/a.css", some "x"⟩,
      .add ⟨⟨2, 0⟩, none, none, some "y"⟩,
      .add ⟨⟨1, 4⟩, some ⟨7, 2⟩, some "b.css", none⟩,
      .chain input "css/a.css" (some "css")]
    let draft := Draft.run {} calls
    let sentOn : Mapping := ⟨⟨1, 0⟩, some ⟨"b.css", ⟨4294967295, 0⟩, some "x"⟩⟩
    let other : Mapping := ⟨⟨1, 4⟩, some ⟨"b.css", ⟨7, 2⟩, none⟩⟩
    draft.mappings.toList = [sentOn, other] ∧ sentOn.Consistent ∧ draft.sources = ["b.css"] ∧
      draft.names = ["x"] ∧
      ∀ index file directory, List.Forall₂ (fun old new => new.generated = old.generated ∧
          (old.source ≠ some file → new = old))
        [sentOn, other] (draft.chain index file directory).mappings.toList := by
  intro input calls draft sentOn other
  have hread : Segments.read #["../b.css"] #[] "AADA".toList
      = .ok [⟨⟨1, 0⟩, some ⟨"../b.css", ⟨4294967295, 0⟩, none⟩⟩] := by
    decide +kernel
  have hindex : Index.ofRaw input
      = .ok ⟨none, ["../b.css"], [], [⟨⟨1, 0⟩, some ⟨"../b.css", ⟨4294967295, 0⟩, none⟩⟩]⟩ := by
    unfold Index.ofRaw
    rw [if_neg (not_not.mpr rfl)]
    simp only [input, List.map_cons, List.map_nil, Index.rooted]
    rw [hread]
    simp
  have hmappings : draft.mappings.toList = [sentOn, other] := by
    have hlast : draft
        = (Draft.run {} (calls.take 3)).after (.chain input "css/a.css" (some "css")) := rfl
    rw [hlast, after, call, hindex]
    show (Draft.chain _ _ _ _).mappings.toList = _
    rw [mappings_chain]
    rfl
  obtain ⟨hconsistent, hsources, hnames, -, hchain⟩ := tables_describe_mappings none none calls
  refine ⟨hmappings, ?_, ?_, ?_, ?_⟩
  · exact hconsistent sentOn (hmappings ▸ List.mem_cons_self)
  · exact (hmappings ▸ hsources : draft.sources = _)
  · exact (hmappings ▸ hnames : draft.names = _)
  · intro index file directory
    rw [← hmappings]
    exact hchain index file directory

end Draft

end StylePrint.SourceMap
