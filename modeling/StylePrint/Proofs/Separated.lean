/-!
Lists that are put together with a separator between them, and lists that are divided at one or
where a property ends.
-/

namespace List

variable {α : Type}

/-- What stands in a list that was put together stands in a part or between two. -/
theorem mem_of_mem_intercalate {separator : List α} {parts : List (List α)} {a : α}
    (h : a ∈ separator.intercalate parts) : a ∈ separator ∨ ∃ part ∈ parts, a ∈ part := by
  induction parts with
  | nil => cases h
  | cons part parts ih =>
      cases parts with
      | nil =>
          rw [intercalate_singleton] at h
          exact .inr ⟨part, mem_cons_self, h⟩
      | cons next rest =>
          rw [intercalate_cons_cons, append_assoc] at h
          rcases mem_append.mp h with h | h
          · exact .inr ⟨part, mem_cons_self, h⟩
          · rcases mem_append.mp h with h | h
            · exact .inl h
            · exact (ih h).imp_right fun ⟨other, hother, ha⟩ =>
                ⟨other, mem_cons_of_mem part hother, ha⟩

/-- A separator ends a part at once. -/
theorem splitOn_cons_self [BEq α] [LawfulBEq α] (separator : α) (xs : List α) :
    (separator :: xs).splitOn separator = [] :: xs.splitOn separator :=
  splitOn_append_cons_self_of_not_mem not_mem_nil xs

section

variable {p : α → Bool} {xs ys : List α} (hxs : ∀ x ∈ xs, p x = true)
  (hys : ∀ y ∈ ys.head?, p y = false)

include hxs hys

theorem takeWhile_append_of_stops : (xs ++ ys).takeWhile p = xs := by
  rw [takeWhile_append_of_pos hxs]
  cases ys with
  | nil => rw [takeWhile_nil, append_nil]
  | cons y ys => rw [takeWhile_cons_of_neg (by simpa using hys y rfl), append_nil]

theorem dropWhile_append_of_stops : (xs ++ ys).dropWhile p = ys := by
  rw [dropWhile_append_of_pos hxs]
  cases ys with
  | nil => rfl
  | cons y ys => rw [dropWhile_cons_of_neg (by simpa using hys y rfl)]

end

end List
