import StylePrint.Proofs.SourceMap.Lookup
import StylePrint.Proofs.SourceMap.Reachable
/-!
What a decoded map answers. A mapping reaches the places from its own on to the end of its line, and
it is nearest to a place when no mapping that reaches the place stands behind it (`Index.Nearest`).
The mappings of a decoded map stand in the order of their places (`Index.sorted_of_ofRaw`), so the
answer for a place is the origin of a nearest mapping (`Index.lookups_answer_from_nearest`). Which
one that is among several at one place depends on the place asked for: the first of them answers for
their own place, and the last of them for the places behind it (`Index.gap_answers_last`,
`Index.second_answers_behind`).
-/

namespace StylePrint.SourceMap

namespace Index

/-! ### Nearest mappings -/

/-- Whether a mapping reaches a place: it stands on the same line, at the place or before it. -/
def Reaches (m : Mapping) (place : Place) : Prop :=
  m.generated.line = place.line ∧ m.generated.column ≤ place.column

instance (m : Mapping) (place : Place) : Decidable (Reaches m place) :=
  inferInstanceAs (Decidable (_ ∧ _))

/-- Whether a mapping is one of those nearest to a place: it reaches the place, and no mapping that
reaches it stands behind this one. -/
structure Nearest (ms : List Mapping) (place : Place) (m : Mapping) : Prop where
  mem : m ∈ ms
  reaches : Reaches m place
  greatest : ∀ b ∈ ms, Reaches b place → b.generated.column ≤ m.generated.column

/-- The mappings that stand at a place. -/
def standingAt (ms : List Mapping) (place : Place) : List Mapping :=
  ms.filter (·.generated = place)

variable {ms : List Mapping} {place : Place} {m : Mapping}

theorem mem_standingAt : m ∈ standingAt ms place ↔ m ∈ ms ∧ m.generated = place := by
  rw [standingAt, List.mem_filter, decide_eq_true_eq]

theorem reaches_self (m : Mapping) : Reaches m m.generated :=
  ⟨rfl, UInt32.le_refl _⟩

/-- The nearest mappings stand at one place. -/
theorem Nearest.generated_eq {m' : Mapping} (h : Nearest ms place m) (h' : Nearest ms place m') :
    m.generated = m'.generated := by
  rw [Place.mk.injEq]
  refine ⟨h.reaches.1.trans h'.reaches.1.symm, UInt32.le_antisymm ?_ ?_⟩
  · exact h'.greatest m h.mem h.reaches
  · exact h.greatest m' h'.mem h'.reaches

/-- A mapping at the place itself is nearest to it. -/
theorem nearest_self (h : m ∈ ms) : Nearest ms m.generated m :=
  ⟨h, reaches_self m, fun _ _ hb => hb.2⟩

/-! ### The mapping that answers -/

/-- Where mappings stand at a place, the first of them answers for it. -/
theorem closest?_of_mem (h : ∃ m ∈ ms, m.generated = place) :
    closest? ms place = (standingAt ms place).head? := by
  obtain ⟨hit, hfind⟩ : ∃ hit, ms.find? (fun m => m.generated = place) = some hit := by
    rw [← Option.isSome_iff_exists, List.find?_isSome]
    simpa using h
  rw [standingAt, List.head?_filter, closest?, hfind]

/-- Where none stands at a place, the last one that reaches it answers for it. -/
theorem closest?_of_gap (h : ∀ m ∈ ms, m.generated ≠ place) :
    closest? ms place = (ms.filter (Reaches · place)).getLast? := by
  have hfind : ms.find? (fun m => m.generated = place) = none := by
    rw [List.find?_eq_none]
    simpa using h
  rw [closest?, hfind]
  refine congrArg List.getLast? (List.filter_congr ?_)
  intro m hm
  rw [Bool.eq_iff_iff, Bool.and_eq_true, decide_eq_true_eq, decide_eq_true_eq, decide_eq_true_eq]
  refine and_congr_right fun hline => ⟨UInt32.le_of_lt, fun hle => UInt32.lt_of_le_of_ne hle ?_⟩
  intro hcolumn
  exact h m hm ((Place.mk.injEq ..).mpr ⟨hline, hcolumn⟩)

/-- No mapping answers for a place exactly when none reaches it. -/
theorem closest?_eq_none_iff : closest? ms place = none ↔ ∀ m ∈ ms, ¬ Reaches m place := by
  by_cases hhit : ∃ m ∈ ms, m.generated = place
  · obtain ⟨m, hm, rfl⟩ := hhit
    rw [closest?_of_mem ⟨m, hm, rfl⟩, List.head?_eq_none_iff]
    constructor
    · intro hnil
      exact absurd (hnil ▸ mem_standingAt.mpr ⟨hm, rfl⟩) List.not_mem_nil
    · intro hnone
      exact absurd (reaches_self m) (hnone m hm)
  · have hgap : ∀ m ∈ ms, m.generated ≠ place := fun m hm hplace => hhit ⟨m, hm, hplace⟩
    rw [closest?_of_gap hgap, List.getLast?_eq_none_iff, List.filter_eq_nil_iff]
    simp only [decide_eq_true_eq]

/-! ### Sorted mappings -/

theorem column_le_of_notAfter {a b : Mapping} (h : notAfter a b = true)
    (hline : a.generated.line = b.generated.line) : a.generated.column ≤ b.generated.column := by
  rw [notAfter, Place.order, Ordering.isLE_then_iff_and, hline] at h
  rcases h.2 with hlt | hcolumn
  · exact absurd (Std.compare_eq_lt.mp hlt) (UInt32.lt_irrefl _)
  · exact Std.isLE_compare.mp hcolumn

/-- The mappings of a decoded map stand in the order of their places. -/
theorem sorted_of_ofRaw {raw : RawMap} {index : Index} (h : ofRaw raw = .ok index) :
    index.mappings.Pairwise (notAfter · ·) := by
  obtain ⟨-, ms, -, rfl⟩ := ofRaw_eq_ok.mp h
  have := transCmp_on Place.order Mapping.generated
  exact pairwise_mergeSort_cmp (fun a b : Mapping => a.generated.order b.generated) ms

/-- Among mappings in the order of their places, the last one that reaches a place is nearest. -/
theorem nearest_of_getLast? (hsorted : ms.Pairwise (notAfter · ·))
    (h : (ms.filter (Reaches · place)).getLast? = some m) : Nearest ms place m := by
  obtain ⟨front, hfront⟩ := List.getLast?_eq_some_iff.mp h
  have hlast : m ∈ ms.filter (Reaches · place) := List.mem_of_getLast? h
  obtain ⟨hm, hreaches⟩ := List.mem_filter.mp hlast
  have hreaches : Reaches m place := of_decide_eq_true hreaches
  refine ⟨hm, hreaches, ?_⟩
  intro b hb hb'
  have hmem : b ∈ front ++ [m] := hfront ▸ List.mem_filter.mpr ⟨hb, decide_eq_true hb'⟩
  rcases List.mem_append.mp hmem with hearlier | hsame
  · have hordered := hsorted.filter (Reaches · place)
    rw [hfront] at hordered
    refine column_le_of_notAfter ?_ (hb'.1.trans hreaches.1.symm)
    exact (List.pairwise_append.mp hordered).2.2 b hearlier m List.mem_cons_self
  · rw [List.mem_singleton.mp hsame]
    exact UInt32.le_refl _

/-- Among mappings in the order of their places, the one that answers for a place is nearest. -/
theorem nearest_of_closest? (hsorted : ms.Pairwise (notAfter · ·))
    (h : closest? ms place = some m) : Nearest ms place m := by
  by_cases hhit : ∃ m ∈ ms, m.generated = place
  · rw [closest?_of_mem hhit] at h
    obtain ⟨hm, rfl⟩ := mem_standingAt.mp (List.mem_of_head? h)
    exact nearest_self hm
  · rw [closest?_of_gap fun m hm hplace => hhit ⟨m, hm, hplace⟩] at h
    exact nearest_of_getLast? hsorted h

/-- **For a place behind the nearest mappings, the last of them answers.** -/
theorem Nearest.closest?_behind (h : Nearest ms place m) (hsorted : ms.Pairwise (notAfter · ·))
    (hbehind : place ≠ m.generated) :
    closest? ms place = (standingAt ms m.generated).getLast? := by
  have hgap : ∀ b ∈ ms, b.generated ≠ place := by
    rintro b hb rfl
    exact hbehind ((nearest_self hb).generated_eq h)
  have hgiven : m ∈ ms.filter (Reaches · place) :=
    List.mem_filter.mpr ⟨h.mem, decide_eq_true h.reaches⟩
  obtain ⟨last, hlast⟩ : ∃ last, (ms.filter (Reaches · place)).getLast? = some last := by
    rw [← Option.ne_none_iff_exists', Ne, List.getLast?_eq_none_iff]
    exact List.ne_nil_of_mem hgiven
  have hplace : last.generated = m.generated := (nearest_of_getLast? hsorted hlast).generated_eq h
  -- the mappings at the nearest place are among those that reach, and the last of these is one
  have hfilter : standingAt ms m.generated
      = (ms.filter (Reaches · place)).filter (·.generated = m.generated) := by
    rw [standingAt, List.filter_filter]
    refine List.filter_congr fun b _ => ?_
    rw [Bool.eq_iff_iff, Bool.and_eq_true, decide_eq_true_eq, decide_eq_true_eq]
    refine ⟨fun hb => ⟨hb, ?_⟩, And.left⟩
    rw [Reaches, hb]
    exact h.reaches
  obtain ⟨front, hfront⟩ := List.getLast?_eq_some_iff.mp hlast
  have hkept : [last].filter (·.generated = m.generated) = [last] :=
    List.filter_cons_of_pos (decide_eq_true hplace)
  rw [closest?_of_gap hgap, hfilter, hlast, hfront, List.filter_append, hkept, List.getLast?_concat]

/-! ### Answers -/

/-- **A decoded map answers from the nearest mappings.** Its mappings stand in the order of their
places, and an origin lies in one of the map's sources, on a line from one on. The answer for a
place is the origin of a mapping nearest to it; there is none only where no mapping reaches the
place or one of the nearest has no origin, and never one for line zero. -/
theorem lookups_answer_from_nearest {raw : RawMap} {index : Index} (h : ofRaw raw = .ok index) :
    index.mappings.Pairwise (notAfter · ·) ∧
      (∀ m ∈ index.mappings, ∀ origin ∈ m.origin,
        origin.source ∈ index.sources ∧ 1 ≤ origin.place.line) ∧
      ∀ place : Place,
        (∀ origin ∈ index.origin? place,
          ∃ m, Nearest index.mappings place m ∧ m.origin = some origin) ∧
        (index.origin? place = none →
          (∀ m ∈ index.mappings, ¬ Reaches m place) ∨
            ∃ m, Nearest index.mappings place m ∧ m.origin = none) ∧
        (place.line = 0 → index.origin? place = none) := by
  have hsorted := sorted_of_ofRaw h
  have hwritable := writable_of_ofRaw h
  refine ⟨hsorted, ?_, ?_⟩
  · intro m hm origin horigin
    refine ⟨(hwritable m hm).source origin horigin, ?_⟩
    exact UInt32.le_iff_toNat_le.mpr ((hwritable m hm).sourceLine origin horigin)
  · intro place
    refine ⟨?_, ?_, ?_⟩
    · intro origin horigin
      obtain ⟨m, hclosest, horigin⟩ := Option.bind_eq_some_iff.mp horigin
      exact ⟨m, nearest_of_closest? hsorted hclosest, horigin⟩
    · intro hnone
      cases hclosest : closest? index.mappings place with
      | none => exact .inl (closest?_eq_none_iff.mp hclosest)
      | some m =>
          rw [origin?, hclosest] at hnone
          exact .inr ⟨m, nearest_of_closest? hsorted hclosest, hnone⟩
    · intro hline
      -- generated lines are counted from one
      have hunreached : ∀ m ∈ index.mappings, ¬ Reaches m place := by
        rintro m hm ⟨hsame, -⟩
        have hpos := (hwritable m hm).line
        rw [hsame, hline] at hpos
        exact Nat.lt_irrefl 0 hpos
      rw [origin?, closest?_eq_none_iff.mpr hunreached]
      rfl

/-- The columns of the first line go back below zero, where they wrap around; a mapping without an
origin stands at the place of another one, and the second line is empty. -/
theorem lookups_answer_from_nearest_of_wrapped :
    let raw : RawMap :=
      ⟨3, ["a.css", "b.css"], ["x"], "IAAA,LCACA,,A,NAAA;;C", none, some "css", none⟩
    ∃ index, ofRaw raw = .ok index ∧
      ∃ m, Nearest index.mappings ⟨1, 4294967295⟩ m ∧
        m.origin = some ⟨"css/b.css", ⟨1, 1⟩, some "x"⟩ := by
  intro raw
  let ms : List Mapping :=
    [⟨⟨1, 4⟩, some ⟨"css/a.css", ⟨1, 0⟩, none⟩⟩,
     ⟨⟨1, 4294967295⟩, some ⟨"css/b.css", ⟨1, 1⟩, some "x"⟩⟩, ⟨⟨1, 4294967295⟩, none⟩,
     ⟨⟨1, 4294967289⟩, some ⟨"css/b.css", ⟨1, 1⟩, none⟩⟩, ⟨⟨3, 1⟩, none⟩]
  let sorted : List Mapping :=
    [⟨⟨1, 4⟩, some ⟨"css/a.css", ⟨1, 0⟩, none⟩⟩,
     ⟨⟨1, 4294967289⟩, some ⟨"css/b.css", ⟨1, 1⟩, none⟩⟩,
     ⟨⟨1, 4294967295⟩, some ⟨"css/b.css", ⟨1, 1⟩, some "x"⟩⟩, ⟨⟨1, 4294967295⟩, none⟩,
     ⟨⟨3, 1⟩, none⟩]
  have hread : Segments.read (raw.sources.map (rooted raw.sourceRoot)).toArray raw.names.toArray
      raw.mappings.toList = .ok ms := by
    decide +kernel
  have hsorted : ms.mergeSort notAfter = sorted := by
    simp +decide [ms, sorted, List.mergeSort, List.MergeSort.Internal.splitInTwo]
  have hindex : ofRaw raw = .ok ⟨none, raw.sources.map (rooted raw.sourceRoot), [], sorted⟩ :=
    ofRaw_eq_ok.mpr ⟨rfl, ms, hread, by rw [hsorted]; rfl⟩
  refine ⟨_, hindex, ((lookups_answer_from_nearest hindex).2.2 ⟨1, 4294967295⟩).1 _ ?_⟩
  show closest? sorted ⟨1, 4294967295⟩ >>= (·.origin) = _
  decide

/-- **The first mapping at a place answers for the place, and the last one for what lies behind.**
Several mappings may stand at the place of those nearest to another place. For their own place the
first of them answers, as if the others were not there; for the other place, where it lies behind
theirs, the last of them does. -/
theorem gap_answers_last {raw : RawMap} {index : Index} {place : Place} {m : Mapping}
    (h : ofRaw raw = .ok index) (hm : Nearest index.mappings place m) :
    ∃ first last, (standingAt index.mappings m.generated).head? = some first ∧
      (standingAt index.mappings m.generated).getLast? = some last ∧
      index.origin? m.generated = first.origin ∧
      (place ≠ m.generated → index.origin? place = last.origin) := by
  have hmem : m ∈ standingAt index.mappings m.generated := mem_standingAt.mpr ⟨hm.mem, rfl⟩
  obtain ⟨first, hfirst⟩ : ∃ first, (standingAt index.mappings m.generated).head? = some first := by
    rw [← Option.ne_none_iff_exists', Ne, List.head?_eq_none_iff]
    exact List.ne_nil_of_mem hmem
  obtain ⟨last, hlast⟩ :
      ∃ last, (standingAt index.mappings m.generated).getLast? = some last := by
    rw [← Option.ne_none_iff_exists', Ne, List.getLast?_eq_none_iff]
    exact List.ne_nil_of_mem hmem
  refine ⟨first, last, hfirst, hlast, ?_, ?_⟩
  · rw [origin?, closest?_of_mem ⟨m, hm.mem, rfl⟩, hfirst, Option.bind_some]
  · intro hbehind
    rw [origin?, hm.closest?_behind (sorted_of_ofRaw h) hbehind, hlast, Option.bind_some]

/-- Three mappings at one place, the last of which has no origin: a place behind them has no answer,
although their own place has one. -/
theorem gap_answers_last_of_bare :
    let raw : RawMap := ⟨3, ["a.css"], ["x"], ";IAAAA,AACA,A,IAAA", none, none, none⟩
    ∃ index, ofRaw raw = .ok index ∧
      index.origin? ⟨2, 4⟩ = some ⟨"a.css", ⟨1, 0⟩, some "x"⟩ ∧ index.origin? ⟨2, 7⟩ = none := by
  intro raw
  let ms : List Mapping :=
    [⟨⟨2, 4⟩, some ⟨"a.css", ⟨1, 0⟩, some "x"⟩⟩, ⟨⟨2, 4⟩, some ⟨"a.css", ⟨2, 0⟩, none⟩⟩,
     ⟨⟨2, 4⟩, none⟩, ⟨⟨2, 8⟩, some ⟨"a.css", ⟨2, 0⟩, none⟩⟩]
  have hread : Segments.read (raw.sources.map (rooted raw.sourceRoot)).toArray raw.names.toArray
      raw.mappings.toList = .ok ms := by
    decide +kernel
  have hsorted : ms.mergeSort notAfter = ms := List.mergeSort_of_pairwise (by decide)
  have hindex : ofRaw raw = .ok ⟨none, ["a.css"], [], ms⟩ :=
    ofRaw_eq_ok.mpr ⟨rfl, ms, hread, by rw [hsorted]; rfl⟩
  have hnearest : Nearest ms ⟨2, 7⟩ ⟨⟨2, 4⟩, none⟩ := ⟨by decide, by decide, by decide⟩
  obtain ⟨first, last, hfirst, hlast, hhit, hgap⟩ := gap_answers_last hindex hnearest
  obtain rfl : first = ⟨⟨2, 4⟩, some ⟨"a.css", ⟨1, 0⟩, some "x"⟩⟩ :=
    (Option.some.inj hfirst).symm
  obtain rfl : last = ⟨⟨2, 4⟩, none⟩ := (Option.some.inj hlast).symm
  exact ⟨_, hindex, hhit, hgap (by decide)⟩

/-- **A place behind two mappings is not answered for by the first.** Both mappings stand at the
place that is nearest; the first of them answers for it, and the second for the place behind it. -/
theorem second_answers_behind :
    let raw : RawMap := ⟨3, ["a.css"], [], "AAAA,AACA", none, none, none⟩
    let first : Mapping := ⟨⟨1, 0⟩, some ⟨"a.css", ⟨1, 0⟩, none⟩⟩
    ∃ index, ofRaw raw = .ok index ∧ Nearest index.mappings ⟨1, 5⟩ first ∧
      (standingAt index.mappings ⟨1, 0⟩).head? = some first ∧
      index.origin? ⟨1, 0⟩ = first.origin ∧
      index.origin? ⟨1, 5⟩ = some ⟨"a.css", ⟨2, 0⟩, none⟩ ∧
      index.origin? ⟨1, 5⟩ ≠ first.origin := by
  intro raw first
  let ms : List Mapping := [first, ⟨⟨1, 0⟩, some ⟨"a.css", ⟨2, 0⟩, none⟩⟩]
  have hread : Segments.read (raw.sources.map (rooted raw.sourceRoot)).toArray raw.names.toArray
      raw.mappings.toList = .ok ms := by
    decide +kernel
  have hsorted : ms.mergeSort notAfter = ms := List.mergeSort_of_pairwise (by decide)
  have hindex : ofRaw raw = .ok ⟨none, ["a.css"], [], ms⟩ :=
    ofRaw_eq_ok.mpr ⟨rfl, ms, hread, by rw [hsorted]; rfl⟩
  exact ⟨_, hindex, ⟨by decide, by decide, by decide⟩, by decide, by decide, by decide, by decide⟩

end Index

end StylePrint.SourceMap
