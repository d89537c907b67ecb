import StylePrint.Proofs.Printing.Landing
import StylePrint.Proofs.Session.Accuracy
/-!
The maps of the compact layout, from a tree to the answers of an index. A dropped comment leaves a
mapping at the place of what is written next, so several mappings may share a place. They are
written in the order of their origins and the first of them answers; so at the heading of a node the
index answers with the least origin among that of the node and those of the comments dropped
directly before it (`compact_map_answers_least`), and with the node's own only where no such comment
comes from before it (`dropped_comment_answers`).
-/

namespace StylePrint

open StylePrint.SourceMap StylePrint.Sheet

/-! ### The order of origins -/

/-- The order of origins without names: by source, then by place in it. -/
def SourceMap.Origin.order (a b : Origin) : Ordering :=
  (compare a.source b.source).then (a.place.order b.place)

namespace Tracker

/-- Marks at one caret are in the order of their origins. -/
theorem notAfter_mappingAt (k : Caret) (p q : Position) :
    Draft.notAfter (mappingAt k p) (mappingAt k q) = ((originOf p).order (originOf q)).isLE := by
  have hplace : k.place.order k.place = .eq := @Std.ReflCmp.compare_self _ Place.order _ k.place
  have hname : Mapping.orderMissingLast none none = .eq := rfl
  show Ordering.isLE ((((k.place.order k.place).then (compare _ _)).then (Place.order _ _)).then
    (Mapping.orderMissingLast none none)) = _
  rw [hplace, hname, Ordering.then_eq, Ordering.eq_then]
  rfl

/-- Origins of which neither comes after the other are one. -/
theorem originOf_eq_of_isLE {p q : Position} (hpq : ((originOf p).order (originOf q)).isLE)
    (hqp : ((originOf q).order (originOf p)).isLE) : originOf p = originOf q := by
  rw [← notAfter_mappingAt Caret.start] at hpq hqp
  have hsame : mappingAt Caret.start p = mappingAt Caret.start q :=
    Std.Antisymm.antisymm (r := fun a b => Draft.notAfter a b = true) _ _ hpq hqp
  exact Option.some.inj (congrArg Mapping.origin hsame)

/-! ### The index of a map -/

/-- Marks have no names. -/
theorem names_follow {options : Options} {ps : List Layout.Piece} {t : Tracker}
    (hfollow : (Tracker.start options).follow ps = .ok t) : t.draft.names = [] := by
  have hmappings : t.draft.mappings.toList = along Caret.start ps := mappings_follow hfollow
  rw [(reachable_follow hfollow .empty).sound.names, List.eq_nil_iff_forall_not_mem]
  intro name hname
  obtain ⟨m, hm, hnamed⟩ := Draft.mem_namesOf.mp hname
  rw [hmappings] at hm
  obtain ⟨more, position, rfl, -⟩ := mem_along hm
  cases hnamed

/-- The index of what a new tracker recorded has its mappings, in ascending order. -/
theorem index_of_follow {options : Options} {ps : List Layout.Piece} {t : Tracker}
    (contents : List (String × String)) (hfollow : (Tracker.start options).follow ps = .ok t)
    (hsources : t.draft.sources.length ≤ 2 ^ 32) :
    ∃ index, Index.ofRaw (Draft.finish { t.draft with contents }) = .ok index ∧
      index.mappings.Pairwise (Draft.notAfter · ·) ∧
      ∀ m, m ∈ index.mappings ↔ m ∈ along Caret.start ps := by
  have hmappings : t.draft.mappings.toList = along Caret.start ps := mappings_follow hfollow
  have hreach : t.draft.Reachable none none := reachable_follow hfollow .empty
  have hsound : Draft.Sound { t.draft with contents } :=
    ⟨hreach.sound.placed, hreach.sound.sources, hreach.sound.names⟩
  have hfits : Draft.Fits { t.draft with contents } := by
    refine ⟨hsources, ?_⟩
    show t.draft.names.length ≤ _
    rw [names_follow hfollow]
    exact Nat.zero_le _
  refine ⟨_, hsound.decode_unrooted hreach.heading.2 hfits, ?_, ?_⟩
  · exact (Draft.pairwise_sorted _).sublist (List.dedup_sublist _)
  · intro m
    rw [List.mem_dedup, Draft.mem_sorted, hmappings]

end Tracker

/-! ### The answer at a landing -/

namespace Layout.Compact

/-- The place where a node lands. -/
def Landing.place (landing : Landing) : Place := (Caret.start.walk landing.before).place

/-- Whether an index answers at a landing with the least of the origins there: with that of the node
exactly when no comment dropped directly before it has a lesser one. -/
structure Landing.Answered (landing : Landing) (index : Index) : Prop where
  least : ∃ position ∈ landing.position :: landing.dropped,
    index.origin? landing.place = some (Tracker.originOf position) ∧
    ∀ other ∈ landing.position :: landing.dropped,
      ((Tracker.originOf position).order (Tracker.originOf other)).isLE
  own : index.origin? landing.place = some (Tracker.originOf landing.position) ↔
    ∀ comment ∈ landing.dropped,
      ((Tracker.originOf landing.position).order (Tracker.originOf comment)).isLE

/-- The node's own origin is the answer when it is a least one. -/
theorem Landing.Answered.of_least {landing : Landing} {index : Index} {position : Position}
    (hposition : position ∈ landing.position :: landing.dropped)
    (hanswer : index.origin? landing.place = some (Tracker.originOf position))
    (hleast : ∀ other ∈ landing.position :: landing.dropped,
      ((Tracker.originOf position).order (Tracker.originOf other)).isLE) :
    landing.Answered index where
  least := ⟨position, hposition, hanswer, hleast⟩
  own := by
    constructor
    · intro hown comment hcomment
      rw [← Option.some.inj (hanswer.symm.trans hown)]
      exact hleast comment (List.mem_cons_of_mem _ hcomment)
    · intro hfirst
      rw [hanswer]
      rcases List.mem_cons.mp hposition with rfl | hdropped
      · rfl
      · exact congrArg some (Tracker.originOf_eq_of_isLE (hleast _ (List.mem_cons_self ..))
          (hfirst position hdropped))

/-- An index of the mappings along a tree's text answers at its landings. -/
theorem answered_of_mem_landings {node : Node} {index : Index}
    (hsorted : index.mappings.Pairwise (Draft.notAfter · ·))
    (hmem : ∀ m, m ∈ index.mappings ↔
      m ∈ Tracker.along Caret.start ((events node).flatMap Event.pieces))
    (hshort : Text.units (textOf (events node)) < 4294967295) {landing : Landing}
    (hlanding : landing ∈ landings node) : landing.Answered index := by
  have hhere (m : Mapping) : m ∈ index.mappings ∧ m.generated = landing.place ↔
      m ∈ (landing.position :: landing.dropped).map
        (Tracker.mappingAt (Caret.start.walk landing.before)) := by
    rw [hmem]
    exact Tracker.mem_along_iff_of_landing (writes_events node) hlanding
      (Caret.hasRoom_start hshort) m
  obtain ⟨hown, hplace⟩ := (hhere _).mpr (List.mem_map_of_mem (List.mem_cons_self ..))
  obtain ⟨hit, hhit, hclosest, hsame, hleast⟩ := Index.closest?_least hsorted hown
  rw [hplace] at hclosest hsame hleast
  obtain ⟨position, hposition, rfl⟩ := List.mem_map.mp ((hhere hit).mp ⟨hhit, hsame⟩)
  refine .of_least hposition ?_ ?_
  · rw [Index.origin?, hclosest]
    rfl
  · intro other hother
    obtain ⟨hthere, hsame'⟩ := (hhere _).mpr (List.mem_map_of_mem hother)
    rw [← Tracker.notAfter_mappingAt]
    exact hleast _ hthere hsame'

end Layout.Compact

/-- Printing a tree in the compact layout with a map leaves the text of its events and a map that is
decoded as the mappings along that text, in ascending order. -/
theorem index_of_compact {options : Options} {node : Node} {reader : Reader} {printed : Printed}
    (hcompact : options.compress = true) (hmap : options.wantsMap = true)
    (hinput : options.inputSourcemaps = false)
    (h : (stringify options (some node)).value reader = .ok printed) :
    printed.code.toList = Layout.Compact.textOf (Layout.Compact.events node) ∧
      ∃ map, printed.map = some map ∧ (map.toRaw.sources.length ≤ 2 ^ 32 →
        ∃ index, Index.ofRaw map.toRaw = .ok index ∧
          index.mappings.Pairwise (Draft.notAfter · ·) ∧
          ∀ m, m ∈ index.mappings ↔ m ∈ Tracker.along Caret.start
            ((Layout.Compact.events node).flatMap Layout.Compact.Event.pieces)) := by
  rw [stringify_of_wantsMap hmap] at h
  obtain ⟨t, contents, hfollow, rfl⟩ := mapped_unfollowed hinput h
  have hlayout : options.layout = .compact := by
    rw [Options.layout, hcompact]
    rfl
  have hpieces : Layout.pieces options.indentation 1 (Layout.compact.steps node)
      = (Layout.Compact.events node).flatMap Layout.Compact.Event.pieces :=
    Layout.Compact.pieces_events options.indentation 1 node
  rw [hlayout, hpieces] at hfollow
  refine ⟨?_, _, rfl, ?_⟩
  · show (options.layout.text options.indentation node).toList = _
    rw [hlayout, Layout.text, hpieces, String.toList_ofList,
      Layout.Compact.charsOf_flatMap_pieces]
  · rw [toRaw_mapOf]
    intro hsources
    exact Tracker.index_of_follow contents hfollow hsources

/-- **The maps of the compact layout answer with the least origin.** When a tree is printed in the
compact layout with a map, without following the maps of its sources, its text takes fewer units
than the greatest word and its map has no more sources than 32-bit indices can tell apart, then the
map can be decoded. The landings are those of the nodes with a mark that are no comments, in order;
the heading of each follows the text before it, and there the index answers with the least origin,
by source and then by place, among that of the node and those of the comments dropped directly
before it. -/
theorem compact_map_answers_least {options : Options} {node : Node} {reader : Reader}
    {printed : Printed} (hcompact : options.compress = true) (hmap : options.wantsMap = true)
    (hinput : options.inputSourcemaps = false)
    (h : (stringify options (some node)).value reader = .ok printed)
    (hshort : Text.units printed.code.toList < 4294967295) :
    (Layout.Compact.landings node).map (fun landing => (landing.position, landing.heading))
        = Layout.Compact.kept node ∧
      ∃ map, printed.map = some map ∧ (map.toRaw.sources.length ≤ 2 ^ 32 →
        ∃ index, Index.ofRaw map.toRaw = .ok index ∧
          ∀ landing ∈ Layout.Compact.landings node,
            landing.before ++ landing.heading.toList <+: printed.code.toList ∧
            landing.Answered index) := by
  obtain ⟨hcode, map, hprinted, hindex⟩ := index_of_compact hcompact hmap hinput h
  rw [hcode] at hshort ⊢
  refine ⟨Layout.Compact.map_landings node, map, hprinted, ?_⟩
  intro hsources
  obtain ⟨index, hdecode, hsorted, hmem⟩ := hindex hsources
  refine ⟨index, hdecode, ?_⟩
  intro landing hlanding
  constructor
  · obtain ⟨written, after, hbefore, htext⟩ := Layout.Compact.split_of_mem_landingsFrom hlanding
    rw [htext, hbefore, List.nil_append, ← List.append_assoc]
    exact List.prefix_append ..
  · exact Layout.Compact.answered_of_mem_landings hsorted hmem hshort hlanding

/-- A rule with a comment before it and one inside, of which only the latter comes from before what
follows it. -/
theorem compact_map_answers_least_of_comments :
    let position (line : UInt32) : Option Position :=
      some { start := ⟨line, 1⟩, source := some "a.css" }
    let rule : Node := .block (.rule ["a"])
      [.statement (.comment "y") (position 3), .statement (.declaration "b" "c") (position 4)]
      (position 1)
    let node : Node := .block (.stylesheet none [])
      [.statement (.comment "x") (position 2), rule] none
    let reader : Reader := fun _ => .error .notFound
    ∃ map, (stringify { compress := true, sourcemap := .draft, inputSourcemaps := false }
        (some node)).value reader = .ok ⟨"a\x7bb:c;\x7d", some map⟩ ∧
      map.toRaw.sources.length ≤ 2 ^ 32 ∧ ∃ index, Index.ofRaw map.toRaw = .ok index ∧
        ∀ landing ∈ Layout.Compact.landings node,
          landing.before ++ landing.heading.toList <+: "a\x7bb:c;\x7d".toList ∧
          landing.Answered index := by
  intro position rule node reader
  obtain ⟨map, h, hsources⟩ : ∃ map, (stringify
      { compress := true, sourcemap := .draft, inputSourcemaps := false }
      (some node)).value reader = .ok ⟨"a\x7bb:c;\x7d", some map⟩ ∧
      map.toRaw.sources.length ≤ 2 ^ 32 := ⟨_, rfl, by decide⟩
  have hshort : Text.units "a\x7bb:c;\x7d".toList < 4294967295 := by decide
  obtain ⟨-, map', hmap, hanswers⟩ := compact_map_answers_least rfl rfl rfl h hshort
  obtain rfl := Option.some.inj hmap
  exact ⟨map, h, hsources, hanswers hsources⟩

/-- **A dropped comment answers for the node behind it.** A comment at the beginning of a file and a
rule on its second line land at one place, and there the index answers with the comment. -/
theorem dropped_comment_answers :
    let position (line : UInt32) : Position := { start := ⟨line, 1⟩, source := some "a.css" }
    let rule : Node := .block (.rule ["a"])
      [.statement (.declaration "b" "c") (some (position 3))] (some (position 2))
    let node : Node := .block (.stylesheet none [])
      [.statement (.comment "x") (some (position 1)), rule] none
    let reader : Reader := fun _ => .error .notFound
    ∃ map index, (stringify { compress := true, sourcemap := .draft, inputSourcemaps := false }
        (some node)).value reader = .ok ⟨"a\x7bb:c;\x7d", some map⟩ ∧
      Index.ofRaw map.toRaw = .ok index ∧
      ⟨[], [position 1], position 2, "a"⟩ ∈ Layout.Compact.landings node ∧
      index.origin? ⟨1, 0⟩ = some ⟨"a.css", ⟨1, 0⟩, none⟩ ∧
      Tracker.originOf (position 2) = ⟨"a.css", ⟨2, 0⟩, none⟩ := by
  intro position rule node reader
  obtain ⟨map, h, hsources⟩ : ∃ map, (stringify
      { compress := true, sourcemap := .draft, inputSourcemaps := false }
      (some node)).value reader = .ok ⟨"a\x7bb:c;\x7d", some map⟩ ∧
      map.toRaw.sources.length ≤ 2 ^ 32 := ⟨_, rfl, by decide⟩
  obtain ⟨-, map', hmap, hindex⟩ := index_of_compact rfl rfl rfl h
  obtain rfl := Option.some.inj hmap
  obtain ⟨index, hdecode, hsorted, hmem⟩ := hindex hsources
  have hlanding : ⟨[], [position 1], position 2, "a"⟩ ∈ Layout.Compact.landings node := by decide
  obtain ⟨least, hleast, hanswer, horder⟩ :=
    (Layout.Compact.answered_of_mem_landings hsorted hmem (by decide) hlanding).least
  refine ⟨map, index, h, hdecode, hlanding, ?_, by decide +kernel⟩
  -- the comment comes from before the rule, so the rule is not the least of the two
  rcases List.mem_cons.mp hleast with rfl | hcomment
  · have hbehind : ((Tracker.originOf (position 2)).order (Tracker.originOf (position 1))).isLE
        = false := by decide +kernel
    have hfirst := horder (position 1) (by simp)
    rw [hbehind] at hfirst
    cases hfirst
  · have hplace : Layout.Compact.Landing.place ⟨[], [position 1], position 2, "a"⟩ = ⟨1, 0⟩ := by
      decide
    have horigin : Tracker.originOf (position 1) = ⟨"a.css", ⟨1, 0⟩, none⟩ := by decide +kernel
    rw [List.mem_singleton.mp hcomment, hplace, horigin] at hanswer
    exact hanswer

end StylePrint
