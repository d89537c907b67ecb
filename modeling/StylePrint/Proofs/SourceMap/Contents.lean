import Mathlib.Data.List.Induction
import StylePrint.Proofs.Lookup
import StylePrint.Proofs.SourceMap.Reachable
/-!
The contents of sources. A draft holds the content that was attached to a source last
(`Draft.contentOf_setContent`), so it holds the contents of files once they are attached
(`Draft.contentOf_attach`), and behind an input map the contents that the map gives for its sources
(`Draft.contentOf_chain`). A map gives for a source what stands at the first place of its name, so
what it embeds for a source is found, and survives chaining, unless nothing stands there
(`Draft.embedded_contents_survive`, `Draft.hidden_content_is_lost`).
-/

namespace StylePrint.SourceMap

namespace Draft

/-! ### Attached contents -/

/-- A draft holds the content attached to a source last, and none when that was taken away. -/
theorem contentOf_setContent (draft : Draft) (source : String) (content : Option String)
    (name : String) :
    (draft.setContent source content).contentOf name
      = if name = source then content else draft.contentOf name := by
  rw [contentOf, setContent, List.lookup_append]
  by_cases hname : name = source
  · subst hname
    have hothers : (draft.contents.filter fun entry => entry.1 ≠ name).lookup name = none := by
      rw [List.lookup_eq_none_iff_not_mem]
      simp
    rw [if_pos rfl, hothers, Option.or_none]
    cases content with
    | none => rfl
    | some content => simp
  · have hne : (name == source) = false := beq_eq_false_iff_ne.mpr hname
    rw [if_neg hname, List.lookup_filter_of_ne hname]
    cases content with
    | none => rfl
    | some content => simp [hne, contentOf]

/-- Attaches the contents of files, one after another. -/
def attach (draft : Draft) (files : List (String × String)) : Draft :=
  files.foldl (fun draft file => draft.setContent file.1 (some file.2)) draft

/-- Attaching the contents of files changes nothing else. -/
theorem attach_eq (draft : Draft) (files : List (String × String)) :
    ∃ contents, draft.attach files = { draft with contents } := by
  induction files generalizing draft with
  | nil => exact ⟨draft.contents, rfl⟩
  | cons file rest ih =>
      obtain ⟨contents, h⟩ := ih (draft.setContent file.1 (some file.2))
      exact ⟨contents, h⟩

/-- With the contents of files of distinct names attached, a draft holds those. -/
theorem contentOf_attach {files : List (String × String)} (h : (files.map Prod.fst).Nodup)
    (draft : Draft) (name : String) :
    (draft.attach files).contentOf name = (files.lookup name).or (draft.contentOf name) := by
  induction files generalizing draft with
  | nil => rfl
  | cons file rest ih =>
      obtain ⟨source, content⟩ := file
      rw [List.map_cons, List.nodup_cons] at h
      have hrest : (draft.attach ((source, content) :: rest)).contentOf name
          = (rest.lookup name).or ((draft.setContent source (some content)).contentOf name) :=
        ih h.2 _
      rw [hrest, contentOf_setContent, List.lookup_cons]
      by_cases hname : name = source
      · subst hname
        rw [List.lookup_eq_none_iff_not_mem.mpr h.1, if_pos rfl, beq_self_eq_true]
        rfl
      · rw [if_neg hname, beq_eq_false_iff_ne.mpr hname]

/-! ### Contents behind an input map -/

/-- Behind an input map a draft holds for a name what the map gives for the last of its sources that
is located under that name and that it gives anything for; other contents stay. -/
theorem contentOf_chain (draft : Draft) (index : Index) (file : String)
    (directory : Option String) (name : String) :
    (draft.chain index file directory).contentOf name
      = (index.sources.reverse.findSome? fun source =>
          if located directory source = name then index.contentOf source else none).or
        (draft.contentOf name) := by
  obtain ⟨file', root, sources, names, mappings, contents⟩ := draft
  rw [chain]
  generalize index.sources = givers
  induction givers using List.reverseRecOn with
  | nil => rfl
  | append_singleton givers giver ih =>
      rw [List.foldl_append, List.foldl_cons, List.foldl_nil, List.reverse_append,
        List.reverse_singleton, List.singleton_append, List.findSome?_cons]
      cases hgiven : index.contentOf giver with
      | none =>
          rw [ite_self]
          exact ih
      | some content =>
          rw [contentOf_setContent]
          by_cases hname : located directory giver = name
          · rw [if_pos hname, if_pos hname.symm]
            rfl
          · rw [if_neg hname, if_neg (Ne.symm hname)]
            exact ih

end Draft

/-! ### Embedded contents -/

namespace RawMap

/-- The source at a place in the table of a map, read from the map's root. -/
def sourceAt (raw : RawMap) (i : Nat) : Option String :=
  raw.sources[i]?.map (Index.rooted raw.sourceRoot)

/-- The content that a map embeds at a place in its table. -/
def contentAt (raw : RawMap) (i : Nat) : Option String :=
  (raw.sourcesContent.getD [])[i]?.join

/-- Whether a map embeds a content for a source, at whatever place. -/
def Embeds (raw : RawMap) (source content : String) : Prop :=
  ∃ i, raw.sourceAt i = some source ∧ raw.contentAt i = some content

/-- Whether a source stands at a place and at none before it. -/
def FirstAt (raw : RawMap) (source : String) (i : Nat) : Prop :=
  raw.sourceAt i = some source ∧ ∀ j < i, raw.sourceAt j ≠ some source

/-- Whether the first place of a source comes without content. -/
def Hides (raw : RawMap) (source : String) : Prop :=
  ∃ i, raw.FirstAt source i ∧ raw.contentAt i = none

end RawMap

section Embedded

variable {raw : RawMap} {index : Index} (hindex : Index.ofRaw raw = .ok index)

include hindex

theorem Index.getElem?_sources (i : Nat) : index.sources[i]? = raw.sourceAt i := by
  obtain ⟨-, ms, -, rfl⟩ := Index.ofRaw_eq_ok.mp hindex
  exact List.getElem?_map

theorem Index.idxOf?_sources {source : String} {i : Nat} :
    index.sources.idxOf? source = some i ↔ raw.FirstAt source i := by
  rw [List.idxOf?_eq_some_iff_getElem?]
  simp only [Index.getElem?_sources hindex]
  rfl

/-- A map gives for a source what stands at the first place of that source. -/
theorem Index.contentOf_of_firstAt {source : String} {i : Nat} (h : raw.FirstAt source i) :
    index.contentOf source = raw.contentAt i := by
  rw [Index.contentOf, (Index.idxOf?_sources hindex).mpr h, Option.bind_some]
  obtain ⟨-, ms, -, rfl⟩ := Index.ofRaw_eq_ok.mp hindex
  rfl

theorem Index.exists_firstAt {source : String} (h : source ∈ index.sources) :
    ∃ i, raw.FirstAt source i := by
  obtain ⟨i, hi⟩ := Option.isSome_iff_exists.mp (List.isSome_idxOf?.mpr h)
  exact ⟨i, (Index.idxOf?_sources hindex).mp hi⟩

/-- What a map gives for a source it embeds for it, and does not hide. -/
theorem Index.embeds_of_contentOf {source content : String}
    (h : index.contentOf source = some content) :
    raw.Embeds source content ∧ ¬raw.Hides source := by
  obtain ⟨i, hi, -⟩ := Option.bind_eq_some_iff.mp h
  have hfirst := (Index.idxOf?_sources hindex).mp hi
  rw [Index.contentOf_of_firstAt hindex hfirst] at h
  refine ⟨⟨i, hfirst.1, h⟩, ?_⟩
  rintro ⟨j, hj, hnone⟩
  obtain rfl : i = j := Option.some.inj (hi.symm.trans ((Index.idxOf?_sources hindex).mpr hj))
  rw [h] at hnone
  cases hnone

/-- A map gives a content for each of its sources that it does not hide. -/
theorem Index.exists_contentOf {source : String} (h : source ∈ index.sources)
    (hshown : ¬raw.Hides source) : ∃ content, index.contentOf source = some content := by
  obtain ⟨i, hi⟩ := Index.exists_firstAt hindex h
  rw [Index.contentOf_of_firstAt hindex hi, ← Option.ne_none_iff_exists']
  exact fun hnone => hshown ⟨i, hi, hnone⟩

theorem Index.mem_sources_of_sourceAt {source : String} {i : Nat}
    (h : raw.sourceAt i = some source) : source ∈ index.sources := by
  rw [← Index.getElem?_sources hindex] at h
  exact List.mem_of_getElem? h

end Embedded

namespace Draft

/-- **Embedded contents survive unless they are hidden.** Take a source of a map that can be decoded.
When the map is asked for the content of that source, it gives one that it embeds for it, exactly
when the first place of the source does not come without content. And when the map is chained, of
whatever file and directory, the draft holds content for the located source exactly when it held
some before, or the map embeds some for a source located under the same name whose first place does
not come without. -/
theorem embedded_contents_survive {raw : RawMap} {index : Index}
    (hindex : Index.ofRaw raw = .ok index) {i : Nat} {source : String}
    (hsource : raw.sourceAt i = some source) (draft : Draft) (file : String)
    (directory : Option String) :
    ((∃ found, index.contentOf source = some found ∧ raw.Embeds source found) ↔
        ¬raw.Hides source) ∧
      (((draft.chain index file directory).contentOf (located directory source)).isSome ↔
        (draft.contentOf (located directory source)).isSome ∨
          ∃ other found, located directory other = located directory source ∧
            raw.Embeds other found ∧ ¬raw.Hides other) := by
  have hlisted := Index.mem_sources_of_sourceAt hindex hsource
  constructor
  · constructor
    · rintro ⟨found, hfound, -⟩
      exact (Index.embeds_of_contentOf hindex hfound).2
    · intro hshown
      obtain ⟨found, hfound⟩ := Index.exists_contentOf hindex hlisted hshown
      exact ⟨found, hfound, (Index.embeds_of_contentOf hindex hfound).1⟩
  · rw [contentOf_chain, Option.isSome_or, Bool.or_eq_true, or_comm, List.findSome?_isSome_iff]
    apply or_congr Iff.rfl
    constructor
    · rintro ⟨other, -, hgiven⟩
      split at hgiven
      · rename_i hname
        obtain ⟨found, hfound⟩ := Option.isSome_iff_exists.mp hgiven
        exact ⟨other, found, hname, Index.embeds_of_contentOf hindex hfound⟩
      · cases hgiven
    · rintro ⟨other, found, hname, ⟨j, hj, -⟩, hshown⟩
      have hother := Index.mem_sources_of_sourceAt hindex hj
      refine ⟨other, List.mem_reverse.mpr hother, ?_⟩
      rw [if_pos hname]
      exact Option.isSome_iff_exists.mpr (Index.exists_contentOf hindex hother hshown)

/-- What a map without mappings is decoded as. -/
theorem ofRaw_of_no_mappings (sources : List String) (root : Option String)
    (contents : List (Option String)) :
    Index.ofRaw ⟨3, sources, [], "", none, root, some contents⟩
      = .ok ⟨none, sources.map (Index.rooted root), contents, []⟩ := by
  rw [Index.ofRaw_eq_ok]
  exact ⟨rfl, [], rfl, by simp⟩

/-- Two sources become one under the root, and both come with content. -/
theorem embedded_contents_survive_of_merged :
    let raw : RawMap := ⟨3, ["./a.scss", "b.scss", "a.scss"], [], "", none, some "src",
      some [some "x", none, some "y"]⟩
    ∃ index, Index.ofRaw raw = .ok index ∧ raw.sourceAt 2 = some "src/a.scss" ∧
      ¬raw.Hides "src/a.scss" ∧
      (∃ found, index.contentOf "src/a.scss" = some found ∧ raw.Embeds "src/a.scss" found) ∧
      ((Draft.chain {} index "a.css" (some "css")).contentOf
        (located (some "css") "src/a.scss")).isSome := by
  intro raw
  have hindex := ofRaw_of_no_mappings ["./a.scss", "b.scss", "a.scss"] (some "src")
    [some "x", none, some "y"]
  have hsource : raw.sourceAt 2 = some "src/a.scss" := by decide
  have hshown : ¬raw.Hides "src/a.scss" := by
    rintro ⟨i, ⟨-, hbefore⟩, hnone⟩
    cases i with
    | zero => cases hnone
    | succ i => exact hbefore 0 (Nat.succ_pos i) (by decide)
  obtain ⟨hgiven, hchained⟩ :=
    embedded_contents_survive hindex hsource {} "a.css" (some "css")
  have hmerged : raw.Embeds "src/a.scss" "y" := ⟨2, hsource, rfl⟩
  exact ⟨_, hindex, hsource, hshown, hgiven.mpr hshown,
    hchained.mpr (.inr ⟨"src/a.scss", "y", rfl, hmerged, hshown⟩)⟩

/-- **Hidden content is lost.** Two sources become one under the root, and only the second comes with
content. The map gives none for it, and chained hands none over. -/
theorem hidden_content_is_lost :
    let raw : RawMap := ⟨3, ["./a.scss", "a.scss"], [], "", none, some "src",
      some [none, some "x"]⟩
    ∃ index, Index.ofRaw raw = .ok index ∧ raw.sourceAt 1 = some "src/a.scss" ∧
      raw.contentAt 1 = some "x" ∧ index.contentOf "src/a.scss" = none ∧
      (Draft.chain {} index "a.css" (some "css")).contentOf
        (located (some "css") "src/a.scss") = none := by
  intro raw
  exact ⟨_, ofRaw_of_no_mappings ["./a.scss", "a.scss"] (some "src") [none, some "x"],
    by decide, rfl, by decide, by decide⟩

end Draft

end StylePrint.SourceMap
