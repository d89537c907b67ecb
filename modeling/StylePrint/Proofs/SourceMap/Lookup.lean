import StylePrint.Proofs.SourceMap.Order
/-!
Lookups in a list of mappings. Among mappings at strictly ascending places, a mapping answers between
it and the next one on its line (`Index.closest?_between`). Among mappings in the order in which a
draft writes them, the least of those at a place answers for it (`Index.closest?_least`).
-/

namespace StylePrint.SourceMap

namespace Index

/-- The first mapping at a place answers for it. -/
theorem closest?_exact {before after : List Mapping} {m : Mapping}
    (hbefore : ∀ b ∈ before, b.generated ≠ m.generated) :
    closest? (before ++ m :: after) m.generated = some m := by
  have hnone : before.find? (fun b => b.generated = m.generated) = none := by
    rw [List.find?_eq_none]
    intro b hb
    simpa using hbefore b hb
  have hfind : (before ++ m :: after).find? (fun b => b.generated = m.generated) = some m := by
    rw [List.find?_append, hnone, Option.none_or, List.find?_cons_of_pos (by simp)]
  unfold closest?
  rw [hfind]

/-- Where no mapping is at a place, the last one before it on its line answers for it. -/
theorem closest?_inexact {before after : List Mapping} {m : Mapping} {place : Place}
    (hnone : ∀ b ∈ before ++ m :: after, b.generated ≠ place)
    (hline : m.generated.line = place.line) (hcolumn : m.generated.column < place.column)
    (hafter : ∀ b ∈ after, ¬ (b.generated.line = place.line ∧ b.generated.column < place.column)) :
    closest? (before ++ m :: after) place = some m := by
  have hfind : (before ++ m :: after).find? (fun b => b.generated = place) = none := by
    rw [List.find?_eq_none]
    intro b hb
    simpa using hnone b hb
  have hrest : after.filter (fun b => b.generated.line = place.line
      && b.generated.column < place.column) = [] := by
    rw [List.filter_eq_nil_iff]
    intro b hb
    rw [Bool.and_eq_true, decide_eq_true_eq, decide_eq_true_eq]
    exact hafter b hb
  have hhere : (m.generated.line = place.line && m.generated.column < place.column) = true := by
    rw [Bool.and_eq_true, decide_eq_true_eq, decide_eq_true_eq]
    exact ⟨hline, hcolumn⟩
  unfold closest?
  rw [hfind]
  show (List.filter _ (before ++ m :: after)).getLast? = some m
  rw [List.filter_append, List.filter_cons, if_pos hhere, hrest, List.getLast?_concat]

/-- **A mapping answers up to the next one.** Among mappings at strictly ascending places, a place
on the line of a mapping, at it or behind it, and before the next mapping is answered for by that
mapping. -/
theorem closest?_between {before after : List Mapping} {m : Mapping} {place : Place}
    (hsorted : (before ++ m :: after).Pairwise fun a b => a.generated.order b.generated = .lt)
    (hline : m.generated.line = place.line) (hcolumn : m.generated.column ≤ place.column)
    (hnext : ∀ next ∈ after.head?, place.order next.generated = .lt) :
    closest? (before ++ m :: after) place = some m := by
  obtain ⟨-, hfrom, hbefore⟩ := List.pairwise_append.mp hsorted
  obtain ⟨-, hafter⟩ := List.pairwise_cons.mp hfrom
  have hearlier : ∀ b ∈ before, b.generated.order m.generated = .lt := by
    intro b hb
    exact hbefore b hb m (List.mem_cons_self ..)
  -- everything behind the mapping is behind the place asked for
  have hlater : ∀ b ∈ after, place.order b.generated = .lt := by
    intro b hb
    cases after with
    | nil => cases hb
    | cons next rest =>
        have hn := hnext next rfl
        rcases List.mem_cons.mp hb with rfl | hb
        · exact hn
        · exact Place.order_lt_trans hn ((List.pairwise_cons.mp hafter).1 b hb)
  by_cases hexact : m.generated = place
  · subst hexact
    apply closest?_exact
    intro b hb
    exact Place.ne_of_order_lt (hearlier b hb)
  · have hlt : m.generated.column < place.column := by
      apply UInt32.lt_of_le_of_ne hcolumn
      intro heq
      apply hexact
      rw [Place.mk.injEq]
      exact ⟨hline, heq⟩
    have hreached : m.generated.order place = .lt := Place.order_eq_lt.mpr (Or.inr ⟨hline, hlt⟩)
    refine closest?_inexact ?_ hline hlt fun b hb => Place.not_before_of_order_lt (hlater b hb)
    intro b hb
    rcases List.mem_append.mp hb with hb | hb
    · exact Place.ne_of_order_lt (Place.order_lt_trans (hearlier b hb) hreached)
    · rcases List.mem_cons.mp hb with rfl | hb
      · exact hexact
      · exact (Place.ne_of_order_lt (hlater b hb)).symm

/-- The same by index: the stretch of the mapping at `i` ends where the one at `i + 1` stands. -/
theorem closest?_getElem? {ms : List Mapping} {i : Nat} {m : Mapping} {place : Place}
    (hsorted : ms.Pairwise fun a b => a.generated.order b.generated = .lt) (hm : ms[i]? = some m)
    (hline : m.generated.line = place.line) (hcolumn : m.generated.column ≤ place.column)
    (hnext : ∀ next ∈ ms[i + 1]?, place.order next.generated = .lt) :
    closest? ms place = some m := by
  obtain ⟨hi, hget⟩ := List.getElem?_eq_some_iff.mp hm
  have hsplit : ms = ms.take i ++ m :: ms.drop (i + 1) := by
    rw [← hget, ← List.drop_eq_getElem_cons hi, List.take_append_drop]
  rw [hsplit] at hsorted ⊢
  refine closest?_between hsorted hline hcolumn ?_
  rw [List.head?_drop]
  exact hnext

/-- **The least mapping at a place answers for it**, among mappings in ascending order. -/
theorem closest?_least {ms : List Mapping} {m : Mapping}
    (hsorted : ms.Pairwise (Draft.notAfter · ·)) (hm : m ∈ ms) :
    ∃ hit ∈ ms, closest? ms m.generated = some hit ∧ hit.generated = m.generated ∧
      ∀ b ∈ ms, b.generated = m.generated → Draft.notAfter hit b := by
  obtain ⟨hit, hfind⟩ : ∃ hit, ms.find? (fun b => b.generated = m.generated) = some hit := by
    rw [← Option.isSome_iff_exists, List.find?_isSome]
    exact ⟨m, hm, decide_eq_true rfl⟩
  have hclosest : closest? ms m.generated = some hit := by
    unfold closest?
    rw [hfind]
  obtain ⟨hplace, before, after, rfl, hbefore⟩ := List.find?_eq_some_iff_append.mp hfind
  refine ⟨hit, List.mem_append_cons_self, hclosest, of_decide_eq_true hplace, ?_⟩
  intro b hb hsame
  rcases List.mem_append.mp hb with hb | hb
  · simpa [hsame] using hbefore b hb
  · rcases List.mem_cons.mp hb with rfl | hb
    · exact @Std.ReflCmp.isLE_rfl _ Mapping.order _ b
    · exact (List.pairwise_cons.mp (List.pairwise_append.mp hsorted).2.1).1 b hb

end Index

end StylePrint.SourceMap
