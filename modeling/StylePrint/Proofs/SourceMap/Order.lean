import Mathlib.Data.List.Destutter
import StylePrint.Proofs.SourceMap.Reread
import StylePrint.SourceMap.Draft
/-!
The order of mappings. It compares every part of a mapping, so it is a total order in which only
equal mappings stand side by side (`Mapping.order` is transitive and lawful). Hence sorting brings
repetitions together, and leaving out those that follow each other leaves out all of them
(`Draft.kept_sorted`).
-/

namespace StylePrint.SourceMap

open Std

/-! ### Total orders -/

/-- A transitive comparison stays transitive on what a function reads off. -/
theorem transCmp_on {α β : Type} (cmp : β → β → Ordering) [TransCmp cmp] (f : α → β) :
    TransCmp fun a b => cmp (f a) (f b) where
  eq_swap {a b} := @OrientedCmp.eq_swap β cmp _ (f a) (f b)
  isLE_trans {a b c} hab hbc := @TransCmp.isLE_trans β cmp _ (f a) (f b) (f c) hab hbc

/-- Sorting by a transitive comparison puts everything into its order. -/
theorem pairwise_mergeSort_cmp {α : Type} (cmp : α → α → Ordering) [TransCmp cmp] (xs : List α) :
    (xs.mergeSort fun a b => (cmp a b).isLE).Pairwise fun a b => (cmp a b).isLE := by
  apply List.pairwise_mergeSort
  · intro a b c hab hbc
    exact TransCmp.isLE_trans hab hbc
  · intro a b
    rw [Bool.or_eq_true]
    cases h : cmp a b with
    | lt => exact .inl rfl
    | eq => exact .inl rfl
    | gt =>
        rw [OrientedCmp.lt_of_gt h]
        exact .inr rfl

instance : TransCmp Place.order :=
  inferInstanceAs (TransCmp (compareLex (compareOn Place.line) (compareOn Place.column)))

instance : LawfulEqCmp Place.order where
  eq_of_compare {a b} h := by
    obtain ⟨hline, hcolumn⟩ := Ordering.then_eq_eq.mp h
    cases a
    cases b
    simp only [Place.mk.injEq]
    exact ⟨LawfulEqCmp.eq_of_compare hline, LawfulEqCmp.eq_of_compare hcolumn⟩

namespace Mapping

instance : TransCmp orderMissingLast where
  eq_swap {a b} := by
    cases a <;> cases b
    case some.some => exact OrientedOrd.eq_swap
    all_goals rfl
  isLE_trans {a b c} hab hbc := by
    cases a <;> cases b <;> cases c
    case some.some.some => exact TransOrd.isLE_trans hab hbc
    all_goals first | rfl | contradiction

instance : LawfulEqCmp orderMissingLast where
  eq_of_compare {a b} h := by
    cases a <;> cases b
    case some.some => rw [LawfulEqOrd.eq_of_compare h]
    all_goals first | rfl | contradiction

instance : TransCmp orderMissingFirst where
  eq_swap {a b} := by
    cases a <;> cases b
    case some.some => exact @OrientedCmp.eq_swap _ Place.order _ _ _
    all_goals rfl
  isLE_trans {a b c} hab hbc := by
    cases a <;> cases b <;> cases c
    case some.some.some => exact @TransCmp.isLE_trans _ Place.order _ _ _ _ hab hbc
    all_goals first | rfl | contradiction

instance : LawfulEqCmp orderMissingFirst where
  eq_of_compare {a b} h := by
    cases a <;> cases b
    case some.some => rw [@LawfulEqCmp.eq_of_compare _ Place.order _ _ _ h]
    all_goals first | rfl | contradiction

instance : TransCmp order :=
  have := transCmp_on Place.order Mapping.generated
  have := transCmp_on orderMissingLast Mapping.source
  have := transCmp_on orderMissingFirst Mapping.sourcePlace
  have := transCmp_on orderMissingLast Mapping.name
  inferInstanceAs (TransCmp (compareLex (compareLex (compareLex
    (fun a b : Mapping => a.generated.order b.generated)
    (fun a b => orderMissingLast a.source b.source))
    (fun a b => orderMissingFirst a.sourcePlace b.sourcePlace))
    (fun a b => orderMissingLast a.name b.name)))

/-- A mapping is told by what its order compares. -/
theorem ext_of_parts {a b : Mapping} (hgenerated : a.generated = b.generated)
    (hsource : a.source = b.source) (hplace : a.sourcePlace = b.sourcePlace)
    (hname : a.name = b.name) : a = b := by
  rcases a with ⟨generated, _ | ⟨source, place, name⟩⟩ <;>
    rcases b with ⟨generated', _ | ⟨source', place', name'⟩⟩
  · simp_all
  · simp [Mapping.source] at hsource
  · simp [Mapping.source] at hsource
  · simp_all [Mapping.source, Mapping.sourcePlace, Mapping.name]

instance : LawfulEqCmp order where
  eq_of_compare {a b} h := by
    obtain ⟨h, hname⟩ := Ordering.then_eq_eq.mp h
    obtain ⟨h, hplace⟩ := Ordering.then_eq_eq.mp h
    obtain ⟨hgenerated, hsource⟩ := Ordering.then_eq_eq.mp h
    exact ext_of_parts (LawfulEqCmp.eq_of_compare hgenerated) (LawfulEqCmp.eq_of_compare hsource)
      (LawfulEqCmp.eq_of_compare hplace) (LawfulEqCmp.eq_of_compare hname)

end Mapping

/-! ### Sorted mappings -/

/-- One generated place does not come after another. -/
theorem Place.line_le_of_isLE {a b : Place} (h : (a.order b).isLE) :
    a.line.toNat ≤ b.line.toNat := by
  have hline : (compare a.line b.line).isLE := (Ordering.isLE_then_iff_and.mp h).1
  exact UInt32.le_iff_toNat_le.mp (isLE_compare.mp hline)

/-- One place comes before another when its line does, or on one line its column. -/
theorem Place.order_eq_lt {a b : Place} :
    a.order b = .lt ↔ a.line < b.line ∨ a.line = b.line ∧ a.column < b.column := by
  rw [Place.order, Ordering.then_eq_lt, compare_eq_lt, compare_eq_lt,
    LawfulEqCmp.compare_eq_iff_eq]

theorem Place.order_lt_trans {a b c : Place} (hab : a.order b = .lt) (hbc : b.order c = .lt) :
    a.order c = .lt :=
  @TransCmp.lt_trans _ Place.order _ _ _ _ hab hbc

theorem Place.ne_of_order_lt {a b : Place} (h : a.order b = .lt) : a ≠ b := by
  rintro rfl
  have same : a.order a = .eq := @ReflCmp.compare_self _ Place.order _ a
  rw [same] at h
  cases h

/-- A place that comes after another does not come before it on its line. -/
theorem Place.not_before_of_order_lt {a b : Place} (h : a.order b = .lt) :
    ¬ (b.line = a.line ∧ b.column < a.column) := by
  rintro ⟨hline, hcolumn⟩
  rcases Place.order_eq_lt.mp h with h | ⟨-, h⟩
  · rw [hline] at h
    exact UInt32.lt_irrefl _ h
  · exact UInt32.lt_irrefl _ (UInt32.lt_trans h hcolumn)

namespace Draft

instance : Antisymm fun a b : Mapping => notAfter a b = true where
  antisymm _ _ hab hba :=
    @LawfulEqCmp.eq_of_compare _ Mapping.order _ _ _ (OrientedCmp.isLE_antisymm hab hba)

/-- The mappings of a draft are written in ascending order. -/
theorem pairwise_sorted (draft : Draft) : draft.sorted.Pairwise (notAfter · ·) :=
  pairwise_mergeSort_cmp Mapping.order _

@[simp] theorem mem_sorted {draft : Draft} {m : Mapping} :
    m ∈ draft.sorted ↔ m ∈ draft.mappings.toList :=
  List.mem_mergeSort

/-- Ascending mappings have ascending generated places. -/
theorem generated_of_notAfter {a b : Mapping} (h : notAfter a b) : Index.notAfter a b :=
  (Ordering.isLE_then_iff_and.mp
    (Ordering.isLE_then_iff_and.mp (Ordering.isLE_then_iff_and.mp h).1).1).1

/-- Mappings at strictly ascending places are written in their own order, and each once. -/
theorem dedup_sorted_of_ascending {draft : Draft}
    (h : draft.mappings.toList.Pairwise fun a b => a.generated.order b.generated = .lt) :
    draft.sorted.dedup = draft.mappings.toList := by
  have hsorted : draft.sorted = draft.mappings.toList := by
    apply List.mergeSort_of_pairwise
    refine h.imp ?_
    intro a b hab
    simp [notAfter, Mapping.order, hab, Ordering.then]
  rw [hsorted, List.dedup_eq_self]
  refine h.imp ?_
  rintro a b hab rfl
  exact Place.ne_of_order_lt hab rfl

end Draft

/-! ### Repetitions -/

namespace Segments

theorem cons_kept (previous : Mapping) (ms : List Mapping) :
    previous :: kept (some previous) ms = ms.destutter' (· ≠ ·) previous := by
  induction ms generalizing previous with
  | nil => rfl
  | cons m ms ih =>
      rw [kept, List.destutter'_cons]
      by_cases h : previous = m
      · subst h
        rw [if_pos rfl, if_neg (not_not.mpr rfl), ih]
      · rw [if_neg (fun heq => h (Option.some.inj heq)), if_pos h, ih]

/-- The mappings that get a segment are those that remain when each run of equal ones is cut down to
its first. -/
theorem kept_eq_destutter (ms : List Mapping) : kept none ms = ms.destutter (· ≠ ·) := by
  cases ms with
  | nil => rfl
  | cons m ms =>
      have hnone : ¬ (none = some m) := by simp
      rw [kept, if_neg hnone, cons_kept]
      rfl

end Segments

/-- Sorting leaves no repetition that does not follow directly. -/
theorem Draft.kept_sorted (draft : Draft) :
    Segments.kept none draft.sorted = draft.sorted.dedup := by
  rw [Segments.kept_eq_destutter]
  exact draft.pairwise_sorted.destutter_eq_dedup

end StylePrint.SourceMap
