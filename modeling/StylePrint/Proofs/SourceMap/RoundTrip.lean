import StylePrint.Proofs.Lookup
import StylePrint.Proofs.SourceMap.Order
import StylePrint.Proofs.SourceMap.Reachable
/-!
A draft written down and decoded. Sorted mappings are read back as they were written
(`Segments.read_write`), the index finds them sorted already, and contents stand at the places of
their sources. So the index of a finished draft has the draft's own mappings in order, each once,
and answers for contents as the draft does (`Draft.ofRaw_finish`).
-/

namespace StylePrint.SourceMap

namespace Draft

/-! ### Mappings -/

/-- What an index decoded from a sorted draft sorts is sorted already. -/
theorem mergeSort_dedup_sorted (draft : Draft) (f : String → String) :
    (draft.sorted.dedup.map (Mapping.rename f)).mergeSort Index.notAfter
      = draft.sorted.dedup.map (Mapping.rename f) := by
  apply List.mergeSort_of_pairwise
  rw [List.pairwise_map]
  have hsorted := draft.pairwise_sorted.sublist (List.dedup_sublist draft.sorted)
  exact hsorted.imp fun h => generated_of_notAfter h

/-- The text of a sound draft's mappings is read as these mappings, in order and each once. -/
theorem Sound.read_write {draft : Draft} (h : draft.Sound)
    (hsources : draft.sources.length ≤ 2 ^ 32) (hnames : draft.names.length ≤ 2 ^ 32)
    (f : String → String) :
    Segments.read (draft.sources.map f).toArray draft.names.toArray
        (Segments.write draft.sources draft.names draft.sorted)
      = .ok (draft.sorted.dedup.map (Mapping.rename f)) := by
  rw [← draft.kept_sorted]
  apply Segments.read_write hsources hnames
  · intro m hm
    exact h.writable (mem_sorted.mp hm)
  · exact draft.pairwise_sorted.imp fun h => Place.line_le_of_isLE (generated_of_notAfter h)

/-! ### Contents -/

/-- Contents are written at the places of their sources. -/
theorem getElem?_writtenContents (draft : Draft) (i : Nat) :
    (draft.writtenContents.getD [])[i]?.join = draft.sources[i]?.bind draft.contentOf := by
  unfold writtenContents
  by_cases h : (draft.sources.map draft.contentOf).any Option.isSome
  · simp only [if_pos h, Option.getD_some, List.getElem?_map]
    cases draft.sources[i]? <;> rfl
  · simp only [if_neg h, Option.getD_none]
    cases hs : draft.sources[i]? with
    | none => rfl
    | some s =>
        -- no source has a content, so this one has none either
        simp only [List.any_map, List.any_eq_true, not_exists, not_and] at h
        have hnone := Option.not_isSome_iff_eq_none.mp (h s (List.mem_of_getElem? hs))
        rw [List.getElem?_nil, Option.join_none, Option.bind_some, hnone]

/-! ### The round trip -/

/-- What the written form of a sound draft is decoded as. -/
theorem Sound.decode {draft : Draft} (h : draft.Sound) (hsources : draft.sources.length ≤ 2 ^ 32)
    (hnames : draft.names.length ≤ 2 ^ 32) :
    Index.ofRaw draft.finish = .ok {
      file := draft.file
      sources := draft.sources.map (Index.rooted draft.sourceRoot)
      contents := draft.writtenContents.getD []
      mappings := draft.sorted.dedup.map (Mapping.rename (Index.rooted draft.sourceRoot)) } := by
  have hread := h.read_write hsources hnames (Index.rooted draft.sourceRoot)
  have htext : draft.finish.mappings.toList
      = Segments.write draft.sources draft.names draft.sorted := String.toList_ofList
  rw [← htext] at hread
  refine Index.ofRaw_eq_ok.mpr ⟨rfl, _, hread, ?_⟩
  rw [mergeSort_dedup_sorted]
  rfl

/-- Whether 32-bit indices can tell the sources and the names of a draft apart. -/
structure Fits (draft : Draft) : Prop where
  sources : draft.sources.length ≤ 2 ^ 32
  names : draft.names.length ≤ 2 ^ 32

/-- A draft has no more sources and names than mappings. -/
theorem Sound.fits {draft : Draft} (h : draft.Sound)
    (hsize : draft.mappings.toList.length ≤ 2 ^ 32) : draft.Fits where
  sources := by
    rw [h.sources]
    exact (length_sourcesOf_le _).trans hsize
  names := by
    rw [h.names]
    exact (length_namesOf_le _).trans hsize

/-- A draft without a root is decoded under the names it has for its sources. -/
theorem Sound.decode_unrooted {draft : Draft} (h : draft.Sound) (hroot : draft.sourceRoot = none)
    (hfits : draft.Fits) :
    Index.ofRaw draft.finish = .ok {
      file := draft.file
      sources := draft.sources
      contents := draft.writtenContents.getD []
      mappings := draft.sorted.dedup } := by
  have hid : Index.rooted draft.sourceRoot = id := by
    rw [hroot]
    rfl
  rw [h.decode hfits.sources hfits.names, hid, Mapping.rename_id, List.map_id, List.map_id]

/-- A draft whose mappings stand at strictly ascending places is decoded as these mappings, when it
has no root. -/
theorem Sound.decode_ascending {draft : Draft} (h : draft.Sound) (hroot : draft.sourceRoot = none)
    (hsize : draft.mappings.toList.length ≤ 2 ^ 32)
    (hascending : draft.mappings.toList.Pairwise fun a b =>
      a.generated.order b.generated = .lt) :
    Index.ofRaw draft.finish = .ok {
      file := draft.file
      sources := draft.sources
      contents := draft.writtenContents.getD []
      mappings := draft.mappings.toList } := by
  rw [h.decode_unrooted hroot (h.fits hsize), dedup_sorted_of_ascending hascending]

/-- What a decoded draft without a root answers about contents. -/
theorem contentOf_decoded (draft : Draft) {s : String} (hs : s ∈ draft.sources)
    (file : Option String) (mappings : List Mapping) :
    Index.contentOf ⟨file, draft.sources, draft.writtenContents.getD [], mappings⟩ s
      = draft.contentOf s := by
  obtain ⟨i, hi⟩ := Option.isSome_iff_exists.mp (List.isSome_idxOf?.mpr hs)
  have hat := (List.idxOf?_eq_some_iff_getElem?.mp hi).1
  rw [Index.contentOf, hi, Option.bind_some, getElem?_writtenContents, hat, Option.bind_some]

/-- **A draft written down and decoded loses nothing.** The indices of the written form are 32-bit
words, so it can tell at most 2³² sources and 2³² names apart; within that, whatever calls led to a
draft, what it finishes as is a map that can be decoded. The index has the draft's mappings in
ascending order and each once, its sources in their order, both with the sources read from the root
when there is one, and the draft's file; without a root it has the draft's contents. -/
theorem ofRaw_finish {file sourceRoot : Option String} {draft : Draft}
    (h : Reachable file sourceRoot draft) (hsources : draft.sources.length ≤ 2 ^ 32)
    (hnames : draft.names.length ≤ 2 ^ 32) :
    ∃ index, Index.ofRaw draft.finish = .ok index ∧
      index.mappings = draft.sorted.dedup.map (Mapping.rename (Index.rooted sourceRoot)) ∧
      index.sources = draft.sources.map (Index.rooted sourceRoot) ∧
      index.file = draft.file ∧
      (sourceRoot = none ∨ sourceRoot = some "" →
        ∀ s ∈ draft.sources, index.contentOf s = draft.contentOf s) := by
  refine ⟨_, h.sound.decode hsources hnames, ?_, ?_, rfl, ?_⟩
  · rw [h.heading.2]
  · rw [h.heading.2]
  · intro hroot s hs
    have hid : Index.rooted draft.sourceRoot = id := by
      funext source
      rw [h.heading.2]
      rcases hroot with rfl | rfl <;> rfl
    rw [hid, List.map_id]
    exact contentOf_decoded draft hs _ _

/-- The greatest line and column, a mapping without an origin and a repetition, under a root. -/
theorem ofRaw_finish_extremes :
    let far : Mapping :=
      ⟨⟨4294967295, 4294967295⟩, some ⟨"a.css", ⟨4294967295, 4294967295⟩, some "x"⟩⟩
    let near : Mapping := ⟨⟨1, 0⟩, none⟩
    let draft := ((Draft.record { sourceRoot := some "src" } far).record near).record far
    ∃ index, Index.ofRaw draft.finish = .ok index ∧
      index.mappings = draft.sorted.dedup.map (Mapping.rename (Index.rooted (some "src"))) ∧
      index.sources = draft.sources.map (Index.rooted (some "src")) ∧
      index.file = draft.file ∧
      (some "src" = none ∨ some "src" = some "" →
        ∀ s ∈ draft.sources, index.contentOf s = draft.contentOf s) := by
  intro far near draft
  have hfar : far.Placed := ⟨by decide, by rintro origin ⟨⟩; decide⟩
  have hnear : near.Placed := ⟨by decide, nofun⟩
  have reached : Reachable none (some "src") draft :=
    .next (.next (.next .empty (.record hfar _)) (.record hnear _)) (.record hfar _)
  exact ofRaw_finish reached (by decide) (by decide)

end Draft

end StylePrint.SourceMap
