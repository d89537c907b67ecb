import StylePrint.Proofs.Outcome
import StylePrint.Proofs.SourceMap.Reread
import StylePrint.SourceMap.Draft
/-!
Drafts that a caller can reach. A draft begins empty and goes on by mappings that are taken,
contents that are attached or taken away, and input maps that are chained (`Draft.Step`). Every
draft reached is sound (`Draft.Reachable.sound`): its lines begin at one and its tables list the
sources and names of its mappings.
-/

namespace StylePrint.SourceMap

/-! ### Tables -/

@[simp] theorem mem_addNew {α : Type} [DecidableEq α] {items : List α} {x y : α} :
    y ∈ addNew items x ↔ y ∈ items ∨ y = x := by
  unfold addNew
  by_cases h : x ∈ items
  · rw [if_pos h]
    constructor
    · exact Or.inl
    · rintro (hy | rfl)
      · exact hy
      · exact h
  · rw [if_neg h]
    simp

/-- Adding elements one by one keeps what was there and adds each of them. -/
theorem mem_foldl_addNew {α : Type} [DecidableEq α] {xs items : List α} {y : α} :
    y ∈ xs.foldl addNew items ↔ y ∈ items ∨ y ∈ xs := by
  induction xs generalizing items with
  | nil => simp
  | cons x xs ih => rw [List.foldl_cons, ih, mem_addNew, List.mem_cons, or_assoc]

theorem length_foldl_addNew_le {α : Type} [DecidableEq α] (xs items : List α) :
    (xs.foldl addNew items).length ≤ items.length + xs.length := by
  induction xs generalizing items with
  | nil => simp
  | cons x xs ih =>
      have hadd : (addNew items x).length ≤ items.length + 1 := by
        unfold addNew
        split <;> simp
      have := ih (addNew items x)
      rw [List.foldl_cons, List.length_cons]
      omega

namespace Draft

theorem length_sourcesOf_le (ms : List Mapping) : (sourcesOf ms).length ≤ ms.length := by
  have h := length_foldl_addNew_le (ms.filterMap Mapping.source) []
  have := List.length_filterMap_le Mapping.source ms
  rw [List.length_nil] at h
  unfold sourcesOf
  omega

theorem length_namesOf_le (ms : List Mapping) : (namesOf ms).length ≤ ms.length := by
  have h := length_foldl_addNew_le (ms.filterMap Mapping.name) []
  have := List.length_filterMap_le Mapping.name ms
  rw [List.length_nil] at h
  unfold namesOf
  omega

theorem mem_sourcesOf {ms : List Mapping} {s : String} :
    s ∈ sourcesOf ms ↔ ∃ m ∈ ms, m.source = some s := by
  rw [sourcesOf, mem_foldl_addNew, List.mem_filterMap]
  simp

theorem mem_namesOf {ms : List Mapping} {s : String} :
    s ∈ namesOf ms ↔ ∃ m ∈ ms, m.name = some s := by
  rw [namesOf, mem_foldl_addNew, List.mem_filterMap]
  simp

theorem sourcesOf_concat (ms : List Mapping) (m : Mapping) :
    sourcesOf (ms ++ [m]) = m.source.elim (sourcesOf ms) (addNew (sourcesOf ms)) := by
  unfold sourcesOf
  cases h : m.source <;> simp [List.filterMap_append, List.foldl_append, h]

theorem namesOf_concat (ms : List Mapping) (m : Mapping) :
    namesOf (ms ++ [m]) = m.name.elim (namesOf ms) (addNew (namesOf ms)) := by
  unfold namesOf
  cases h : m.name <;> simp [List.filterMap_append, List.foldl_append, h]

end Draft

/-! ### Decoded mappings -/

theorem saturate_succ_pos (n : Nat) : 0 < (saturate (n + 1)).toNat := by
  rw [toNat_saturate]
  omega

namespace Segments

variable {sources names : Array String} {line : Nat} {base base' : Base}

/-- A name that is read is in the table, and the rest of the base stays. -/
theorem readName_eq_ok {ns : List Int} {name : Option String}
    (h : readName names base ns = .ok (name, base')) : ∀ n ∈ name, n ∈ names.toList := by
  cases ns with
  | nil =>
      obtain ⟨rfl, -⟩ := Prod.mk.inj (Except.ok.inj h)
      simp
  | cons d ds =>
      rw [readName] at h
      split at h
      · rename_i found hfound
        obtain ⟨rfl, -⟩ := Prod.mk.inj (Except.ok.inj h)
        rintro n ⟨⟩
        exact Array.mem_toList_iff.mpr (Array.mem_of_getElem? hfound)
      · simp at h

/-- What a segment is read as could be written over the same tables. -/
theorem writable_of_readNumbers {ns : List Int} {m : Mapping}
    (h : readNumbers sources names line base ns = .ok (m, base')) :
    Writable sources.toList names.toList m := by
  cases ns with
  | nil => cases h
  | cons d rest =>
      rw [readNumbers.eq_def] at h
      simp only at h
      split at h
      · obtain ⟨rfl, -⟩ := Prod.mk.inj (Except.ok.inj h)
        refine ⟨⟨saturate_succ_pos _, ?_⟩, ?_, ?_⟩ <;> rintro origin ⟨⟩
      · split at h
        · cases h
        · split at h
          · cases h
          · rename_i source hsource
            obtain ⟨named, hnamed, h⟩ := Except.bind_eq_ok.mp h
            obtain ⟨rfl, -⟩ := Prod.mk.inj (Except.ok.inj h)
            refine ⟨⟨saturate_succ_pos _, ?_⟩, ?_, ?_⟩
            · rintro origin ⟨⟩
              exact saturate_succ_pos _
            · rintro origin ⟨⟩
              exact Array.mem_toList_iff.mpr (Array.mem_of_getElem? hsource)
            · rintro origin ⟨⟩
              exact readName_eq_ok hnamed
      · cases h

theorem writable_of_readLine {segments : List (List UInt8)} {ms : List Mapping}
    (h : readLine sources names line base segments = .ok (ms, base')) :
    ∀ m ∈ ms, Writable sources.toList names.toList m := by
  induction segments generalizing base ms with
  | nil =>
      obtain ⟨rfl, -⟩ := Prod.mk.inj (Except.ok.inj h)
      intro m hm
      cases hm
  | cons segment rest ih =>
      cases segment with
      | nil => exact ih h
      | cons b bs =>
          rw [readLine] at h
          · obtain ⟨numbers, -, h⟩ := Except.bind_eq_ok.mp h
            obtain ⟨⟨m, base₁⟩, hm, h⟩ := Except.bind_eq_ok.mp h
            obtain ⟨⟨more, base₂⟩, hmore, h⟩ := Except.bind_eq_ok.mp h
            obtain ⟨rfl, rfl⟩ := Prod.mk.inj (Except.ok.inj h)
            intro m' hm'
            rcases List.mem_cons.mp hm' with rfl | hm'
            · exact writable_of_readNumbers hm
            · exact ih hmore m' hm'
          · simp

theorem writable_of_readLines {lines : List (List UInt8)} {ms : List Mapping}
    (h : readLines sources names line base lines = .ok ms) :
    ∀ m ∈ ms, Writable sources.toList names.toList m := by
  induction lines generalizing line base ms with
  | nil =>
      obtain rfl := Except.ok.inj h
      exact nofun
  | cons bytes rest ih =>
      rw [readLines] at h
      obtain ⟨⟨first, base₁⟩, hfirst, h⟩ := Except.bind_eq_ok.mp h
      obtain ⟨more, hmore, h⟩ := Except.bind_eq_ok.mp h
      obtain rfl := Except.ok.inj h
      intro m hm
      rcases List.mem_append.mp hm with hm | hm
      · exact writable_of_readLine hfirst m hm
      · exact ih hmore m hm

end Segments

/-- A map is decoded exactly when it is one of the third revision and its mappings can be read; they
are then put in the order of their places. -/
theorem Index.ofRaw_eq_ok {raw : RawMap} {index : Index} :
    Index.ofRaw raw = .ok index ↔
      raw.version = 3 ∧ ∃ ms, Segments.read (raw.sources.map (Index.rooted raw.sourceRoot)).toArray
          raw.names.toArray raw.mappings.toList = .ok ms ∧
        index = {
          file := raw.file
          sources := raw.sources.map (Index.rooted raw.sourceRoot)
          contents := raw.sourcesContent.getD []
          mappings := ms.mergeSort Index.notAfter } := by
  unfold Index.ofRaw
  constructor
  · intro h
    split at h
    · cases h
    · rename_i hversion
      simp only at h
      split at h
      · cases h
      · rename_i ms hread
        exact ⟨not_not.mp hversion, ms, hread, (Except.ok.inj h).symm⟩
  · rintro ⟨hversion, ms, hread, rfl⟩
    rw [if_neg (not_not.mpr hversion)]
    simp only [hread]

/-- **The mappings of a decoded map could be written over the map's own tables.** -/
theorem Index.writable_of_ofRaw {raw : RawMap} {index : Index} (h : Index.ofRaw raw = .ok index) :
    ∀ m ∈ index.mappings, Segments.Writable index.sources raw.names m := by
  obtain ⟨-, ms, hread, rfl⟩ := Index.ofRaw_eq_ok.mp h
  intro m hm
  exact Segments.writable_of_readLines hread m (List.mem_mergeSort.mp hm)

/-- The mapping that answers for a place is one of the mappings asked. -/
theorem Index.mem_of_closest? {ms : List Mapping} {place : Place}
    {m : Mapping} (h : Index.closest? ms place = some m) : m ∈ ms := by
  unfold Index.closest? at h
  split at h
  · rename_i hit hfind
    obtain rfl := Option.some.inj h
    exact List.mem_of_find?_eq_some hfind
  · exact List.mem_of_mem_filter (List.mem_of_getLast? h)

/-! ### Steps -/

namespace Draft

/-- One call on a draft. A proposal that is refused leaves the draft as it is, so only those that
are taken appear; a map that is chained is one that could be decoded. -/
inductive Step : Draft → Draft → Prop where
  | add {draft next : Draft} {proposal : Proposal} :
      draft.add proposal = .ok next → Step draft next
  | setContent {draft : Draft} (source : String) (content : Option String) :
      Step draft (draft.setContent source content)
  | chain {draft : Draft} {raw : RawMap} {index : Index} (file : String)
      (directory : Option String) :
      Index.ofRaw raw = .ok index → Step draft (draft.chain index file directory)

/-- The drafts that calls reach from an empty one. -/
inductive Reachable (file sourceRoot : Option String) : Draft → Prop where
  | empty : Reachable file sourceRoot { file, sourceRoot }
  | next {draft draft' : Draft} :
      Reachable file sourceRoot draft → Step draft draft' → Reachable file sourceRoot draft'

/-- Whether the lines of a draft begin at one and its tables are those of its mappings. -/
structure Sound (draft : Draft) : Prop where
  placed : ∀ m ∈ draft.mappings.toList, m.Placed
  sources : draft.sources = sourcesOf draft.mappings.toList
  names : draft.names = namesOf draft.mappings.toList

/-- A proposal that is taken has lines from one on. -/
theorem placed_of_check {proposal : Proposal} {m : Mapping} (h : proposal.check = .ok m) :
    m.Placed := by
  unfold Proposal.check at h
  have pos : ∀ {w : UInt32}, w ≠ 0 → 0 < w.toNat := by
    intro w hw
    exact Nat.pos_of_ne_zero fun h0 => hw (UInt32.toNat_inj.mp h0)
  split at h
  · cases h
  · rename_i hline
    split at h
    · split at h
      · cases h
      · rename_i hplace
        split at h
        · obtain rfl := Except.ok.inj h
          refine ⟨pos hline, ?_⟩
          rintro origin ⟨⟩
          exact pos hplace
        · cases h
    · split at h
      · cases h
      · obtain rfl := Except.ok.inj h
        exact ⟨pos hline, nofun⟩

/-- Every mapping with lines from one on can be added. -/
theorem Step.record {m : Mapping} (h : m.Placed) (draft : Draft) :
    Step draft (draft.record m) := by
  have ne_zero : ∀ {w : UInt32}, 0 < w.toNat → w ≠ 0 := by
    rintro w hw rfl
    exact Nat.lt_irrefl 0 hw
  have taken : draft.add ⟨m.generated, m.sourcePlace, m.source, m.name⟩ = .ok (draft.record m) := by
    rcases m with ⟨generated, _ | ⟨source, place, name⟩⟩
    · simp [Draft.add, Proposal.check, Mapping.sourcePlace, Mapping.source, Mapping.name,
        ne_zero h.line, Except.map]
    · simp [Draft.add, Proposal.check, Mapping.sourcePlace, Mapping.source, Mapping.name,
        ne_zero h.line, ne_zero (h.sourceLine _ rfl), Except.map]
  exact .add taken

/-! ### What steps keep -/

theorem Sound.record {draft : Draft} (h : draft.Sound) {m : Mapping} (hm : m.Placed) :
    (draft.record m).Sound := by
  have hpush : (draft.record m).mappings.toList = draft.mappings.toList ++ [m] := by
    simp [Draft.record]
  refine ⟨?_, ?_, ?_⟩
  · intro m' hm'
    rw [hpush] at hm'
    rcases List.mem_append.mp hm' with hm' | hm'
    · exact h.placed m' hm'
    · obtain rfl := List.mem_singleton.mp hm'
      exact hm
  · rw [hpush, sourcesOf_concat, ← h.sources]
    rfl
  · rw [hpush, namesOf_concat, ← h.names]
    rfl

/-- An origin that is sent on through a decoded map still has a line from one on. -/
theorem line_reroute {raw : RawMap} {index : Index} (hindex : Index.ofRaw raw = .ok index)
    (file : String) (directory : Option String) {origin : Origin}
    (h : 0 < origin.place.line.toNat) :
    0 < (reroute index file directory origin).place.line.toNat := by
  unfold reroute
  split
  · cases hfound : index.origin? origin.place with
    | none => exact h
    | some found =>
        obtain ⟨m, hm, hfrom⟩ := Option.bind_eq_some_iff.mp hfound
        exact (Index.writable_of_ofRaw hindex m (Index.mem_of_closest? hm)).sourceLine found hfrom
  · exact h

/-- Attaching contents one after another changes nothing but the contents. -/
theorem foldl_setContent (index : Index) (directory : Option String) (sources : List String)
    (draft : Draft) : ∃ contents,
      sources.foldl (fun draft source =>
        match index.contentOf source with
        | some content => draft.setContent (located directory source) (some content)
        | none => draft) draft = { draft with contents } := by
  induction sources generalizing draft with
  | nil => exact ⟨draft.contents, rfl⟩
  | cons source sources ih =>
      rw [List.foldl_cons]
      cases index.contentOf source with
      | none => exact ih draft
      | some content =>
          obtain ⟨contents, hcontents⟩ := ih (draft.setContent (located directory source) content)
          exact ⟨contents, hcontents⟩

/-- What chaining an input map does to a draft, its contents apart. -/
theorem chain_eq (draft : Draft) (index : Index) (file : String) (directory : Option String) :
    ∃ contents, draft.chain index file directory =
      let mappings := draft.mappings.map fun m =>
        { m with origin := m.origin.map (reroute index file directory) }
      { draft with
        mappings
        sources := sourcesOf mappings.toList
        names := namesOf mappings.toList
        contents } :=
  foldl_setContent index directory index.sources _

theorem Sound.chain {draft : Draft} (h : draft.Sound) {raw : RawMap} {index : Index}
    (hindex : Index.ofRaw raw = .ok index) (file : String) (directory : Option String) :
    (draft.chain index file directory).Sound := by
  obtain ⟨contents, heq⟩ := chain_eq draft index file directory
  rw [heq]
  refine ⟨?_, rfl, rfl⟩
  intro m hm
  rw [Array.toList_map] at hm
  obtain ⟨old, hold, rfl⟩ := List.mem_map.mp hm
  refine ⟨(h.placed old hold).line, ?_⟩
  intro origin horigin
  obtain ⟨before, hbefore, rfl⟩ := Option.map_eq_some_iff.mp horigin
  exact line_reroute hindex file directory ((h.placed old hold).sourceLine before hbefore)

theorem Step.sound {draft next : Draft} (h : Step draft next) (hs : draft.Sound) : next.Sound := by
  cases h with
  | add h =>
      obtain ⟨m, hm, rfl⟩ := Except.map_eq_ok.mp h
      exact hs.record (placed_of_check hm)
  | setContent source content => exact ⟨hs.placed, hs.sources, hs.names⟩
  | chain file directory hindex => exact hs.chain hindex file directory

/-- No call changes what file a draft is for or the root of its sources. -/
theorem Step.heading {draft next : Draft} (h : Step draft next) :
    next.file = draft.file ∧ next.sourceRoot = draft.sourceRoot := by
  cases h with
  | add h =>
      obtain ⟨m, -, rfl⟩ := Except.map_eq_ok.mp h
      exact ⟨rfl, rfl⟩
  | setContent source content => exact ⟨rfl, rfl⟩
  | @chain _ index file directory _ =>
      obtain ⟨contents, heq⟩ := chain_eq draft index file directory
      rw [heq]
      exact ⟨rfl, rfl⟩

section Reachable

variable {file sourceRoot : Option String} {draft : Draft}

/-- **Every draft that calls reach is sound.** -/
theorem Reachable.sound (h : Reachable file sourceRoot draft) : draft.Sound := by
  induction h with
  | empty => exact ⟨nofun, rfl, rfl⟩
  | next _ step ih => exact step.sound ih

theorem Reachable.heading (h : Reachable file sourceRoot draft) :
    draft.file = file ∧ draft.sourceRoot = sourceRoot := by
  induction h with
  | empty => exact ⟨rfl, rfl⟩
  | next _ step ih => exact ⟨step.heading.1.trans ih.1, step.heading.2.trans ih.2⟩

end Reachable

/-- The mappings of a sound draft can be written over its tables. -/
theorem Sound.writable {draft : Draft} (h : draft.Sound) {m : Mapping}
    (hm : m ∈ draft.mappings.toList) :
    Segments.Writable draft.sources draft.names m := by
  refine ⟨h.placed m hm, ?_, ?_⟩
  · intro origin horigin
    rw [h.sources, mem_sourcesOf]
    exact ⟨m, hm, by simp [Mapping.source, Option.mem_def.mp horigin]⟩
  · intro origin horigin name hname
    rw [h.names, mem_namesOf]
    exact ⟨m, hm, by simp [Mapping.name, Option.mem_def.mp horigin, Option.mem_def.mp hname]⟩

end Draft

end StylePrint.SourceMap
