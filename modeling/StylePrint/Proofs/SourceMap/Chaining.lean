import Mathlib.Data.List.Sort
import StylePrint.Proofs.SourceMap.RoundTrip
/-!
Chaining composes maps. Sending the mappings of a source on through an input map keeps their
generated places, so where no two mappings share a place neither their order in the written form
nor their repetitions change (`Draft.dedup_sorted_chain`). A place is then answered for by the same
mapping as before, and its answer is sent on through the input map (`Draft.chain_composes`).
-/

namespace StylePrint.SourceMap

open Std

/-! ### Mappings sent on -/

/-- A mapping whose origin, if it lies in `file`, is sent on through an input map of that file. -/
def Mapping.through (index : Index) (file : String) (directory : Option String) (m : Mapping) :
    Mapping :=
  { m with origin := m.origin.map (Draft.reroute index file directory) }

@[simp] theorem Mapping.generated_through (index : Index) (file : String)
    (directory : Option String) (m : Mapping) :
    (m.through index file directory).generated = m.generated := rfl

/-! ### Mappings at places of their own -/

instance : Asymm fun a b : Mapping => a.generated.order b.generated = .lt where
  asymm _ _ hab hba := Place.ne_of_order_lt (Place.order_lt_trans hab hba) rfl

namespace Draft

/-- Whether different mappings of a draft stand at different generated places; a mapping may be
there more than once. -/
def OnePerPlace (draft : Draft) : Prop :=
  ∀ a ∈ draft.mappings.toList, ∀ b ∈ draft.mappings.toList, a.generated = b.generated → a = b

/-- Mappings at places of their own are written at strictly ascending places. -/
theorem OnePerPlace.ascending {draft : Draft} (h : draft.OnePerPlace) :
    draft.sorted.dedup.Pairwise fun a b => a.generated.order b.generated = .lt := by
  have hsorted := draft.pairwise_sorted.sublist (List.dedup_sublist draft.sorted)
  refine (hsorted.and (List.nodup_dedup draft.sorted)).imp_of_mem ?_
  rintro a b ha hb ⟨hle, hne⟩
  have hgenerated : (a.generated.order b.generated).isLE := generated_of_notAfter hle
  cases horder : a.generated.order b.generated with
  | lt => rfl
  | eq =>
      have hplace : a.generated = b.generated :=
        @LawfulEqCmp.eq_of_compare _ Place.order _ _ _ horder
      rw [List.mem_dedup, mem_sorted] at ha hb
      exact absurd (h a ha b hb hplace) hne
  | gt =>
      rw [horder] at hgenerated
      cases hgenerated

section Chain

variable (draft : Draft) (index : Index) (file : String) (directory : Option String)

/-- Chaining sends each mapping on, where it stands. -/
theorem mappings_chain :
    (draft.chain index file directory).mappings.toList
      = draft.mappings.toList.map (Mapping.through index file directory) := by
  obtain ⟨contents, heq⟩ := chain_eq draft index file directory
  rw [heq]
  exact Array.toList_map

theorem sourceRoot_chain : (draft.chain index file directory).sourceRoot = draft.sourceRoot := by
  obtain ⟨contents, heq⟩ := chain_eq draft index file directory
  rw [heq]

variable {draft}

theorem OnePerPlace.chain (h : draft.OnePerPlace) :
    (draft.chain index file directory).OnePerPlace := by
  intro a ha b hb hplace
  rw [mappings_chain] at ha hb
  obtain ⟨old, hold, rfl⟩ := List.mem_map.mp ha
  obtain ⟨old', hold', rfl⟩ := List.mem_map.mp hb
  rw [h old hold old' hold' hplace]

/-- The mappings of a chained draft are written in the order in which they were written before. -/
theorem dedup_sorted_chain (h : draft.OnePerPlace) :
    (draft.chain index file directory).sorted.dedup
      = draft.sorted.dedup.map (Mapping.through index file directory) := by
  have before : (draft.sorted.dedup.map (Mapping.through index file directory)).Pairwise
      fun a b => a.generated.order b.generated = .lt :=
    List.pairwise_map.mpr h.ascending
  -- ascending lists with the same mappings are the same list
  refine (h.chain index file directory).ascending.eq_of_mem_iff before ?_
  intro m
  simp only [List.mem_dedup, mem_sorted, mappings_chain, List.mem_map]

end Chain

end Draft

/-! ### Answers -/

/-- Mappings that keep their generated places answer for the same places. -/
theorem Index.closest?_map {f : Mapping → Mapping} (hf : ∀ m, (f m).generated = m.generated)
    (ms : List Mapping) (place : Place) :
    closest? (ms.map f) place = (closest? ms place).map f := by
  unfold closest?
  rw [List.find?_map, List.filter_map, List.getLast?_map]
  simp only [Function.comp_def, hf]
  cases ms.find? fun m => m.generated = place <;> rfl

namespace Draft

/-- **Chaining an input map composes the two maps.** Take a draft without a root that calls can
reach and in which no two different mappings share a generated place, and an input map that could be
decoded; both drafts are to fit the indices of the written form. Then the written forms of the draft
and of the chained draft can be decoded. Wherever the first has no answer, the second has none;
where the first answers with a place in `file` and the input map says where that place came from,
the second answers with that, the source read from the map's directory and the old name kept where
the input map has none; elsewhere both answer alike. -/
theorem chain_composes {name : Option String} {draft : Draft} (hreach : Reachable name none draft)
    (hplaces : draft.OnePerPlace) {raw : RawMap} {index : Index}
    (hindex : Index.ofRaw raw = .ok index) (file : String) (directory : Option String)
    (hfits : draft.Fits) (hchained : (draft.chain index file directory).Fits) :
    ∃ before after, Index.ofRaw draft.finish = .ok before ∧
      Index.ofRaw (draft.chain index file directory).finish = .ok after ∧
      ∀ place : Place,
        (before.origin? place = none → after.origin? place = none) ∧
        (∀ origin found, before.origin? place = some origin → origin.source = file →
          index.origin? origin.place = some found →
          after.origin? place
            = some ⟨located directory found.source, found.place, found.name.or origin.name⟩) ∧
        (∀ origin, before.origin? place = some origin →
          origin.source ≠ file ∨ index.origin? origin.place = none →
          after.origin? place = some origin) := by
  have hroot : draft.sourceRoot = none := hreach.heading.2
  have hbefore := hreach.sound.decode_unrooted hroot hfits
  have hafter := (hreach.sound.chain hindex file directory).decode_unrooted
    ((sourceRoot_chain ..).trans hroot) hchained
  refine ⟨_, _, hbefore, hafter, ?_⟩
  intro place
  -- the chained draft answers with what the draft answers, sent on
  have sentOn : ∀ file' sources contents file'' sources' contents',
      Index.origin? ⟨file', sources, contents,
          (draft.chain index file directory).sorted.dedup⟩ place
        = (Index.origin? ⟨file'', sources', contents', draft.sorted.dedup⟩ place).map
            (reroute index file directory) := by
    intro file' sources contents file'' sources' contents'
    unfold Index.origin?
    rw [dedup_sorted_chain index file directory hplaces,
      Index.closest?_map (Mapping.generated_through index file directory)]
    cases Index.closest? draft.sorted.dedup place <;> rfl
  refine ⟨?_, ?_, ?_⟩
  · intro hnone
    rw [sentOn, hnone, Option.map_none]
  · intro origin found hsome hfile hfound
    rw [sentOn, hsome, Option.map_some, reroute, if_pos hfile, hfound]
  · intro origin hsome hstays
    rw [sentOn, hsome, Option.map_some, reroute]
    rcases hstays with hsource | hunplaced
    · rw [if_neg hsource]
    · rw [hunplaced, ite_self]

/-- A name of its own, a repetition, a mapping without an origin and one of another source; the
input map has a name for one place and not for the other, and a source of a name that is taken. -/
theorem chain_composes_of_names :
    let named : Mapping := ⟨⟨1, 4⟩, some ⟨"css/a.css", ⟨2, 0⟩, some "x"⟩⟩
    let plain : Mapping := ⟨⟨1, 0⟩, some ⟨"css/a.css", ⟨3, 7⟩, some "y"⟩⟩
    let bare : Mapping := ⟨⟨1, 9⟩, none⟩
    let other : Mapping := ⟨⟨2, 0⟩, some ⟨"b.css", ⟨1, 0⟩, none⟩⟩
    let draft := ((((Draft.record {} named).record plain).record bare).record named).record other
    let input := (Draft.record {} ⟨⟨2, 0⟩, some ⟨"../b.css", ⟨5, 1⟩, some "z"⟩⟩).record
      ⟨⟨3, 2⟩, some ⟨"a.scss", ⟨8, 3⟩, none⟩⟩
    ∃ index, Index.ofRaw input.finish = .ok index ∧
      ∃ before after, Index.ofRaw draft.finish = .ok before ∧
        Index.ofRaw (draft.chain index "css/a.css" (some "css")).finish = .ok after ∧
        ∀ place : Place,
          (before.origin? place = none → after.origin? place = none) ∧
          (∀ origin found, before.origin? place = some origin → origin.source = "css/a.css" →
            index.origin? origin.place = some found →
            after.origin? place = some ⟨located (some "css") found.source, found.place,
              found.name.or origin.name⟩) ∧
          (∀ origin, before.origin? place = some origin →
            origin.source ≠ "css/a.css" ∨ index.origin? origin.place = none →
            after.origin? place = some origin) := by
  intro named plain bare other draft input
  have hnamed : named.Placed := ⟨by decide, by rintro origin ⟨⟩; decide⟩
  have hplain : plain.Placed := ⟨by decide, by rintro origin ⟨⟩; decide⟩
  have hbare : bare.Placed := ⟨by decide, nofun⟩
  have hother : other.Placed := ⟨by decide, by rintro origin ⟨⟩; decide⟩
  have hreach : Reachable none none draft :=
    .next (.next (.next (.next (.next .empty (.record hnamed _)) (.record hplain _))
      (.record hbare _)) (.record hnamed _)) (.record hother _)
  have hinput : Reachable none none input :=
    .next (.next .empty (.record ⟨by decide, by rintro origin ⟨⟩; decide⟩ _))
      (.record ⟨by decide, by rintro origin ⟨⟩; decide⟩ _)
  have hindex := hinput.sound.decode_unrooted rfl (hinput.sound.fits (by decide))
  have hplaces : draft.OnePerPlace := by
    unfold OnePerPlace
    decide
  have hchained := (hreach.sound.chain hindex "css/a.css" (some "css")).fits
    (by rw [mappings_chain, List.length_map]; decide)
  exact ⟨_, hindex, chain_composes hreach hplaces hindex "css/a.css" (some "css")
    (hreach.sound.fits (by decide)) hchained⟩

end Draft

end StylePrint.SourceMap
