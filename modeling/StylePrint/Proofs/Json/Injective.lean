import StylePrint.Proofs.Json.Float
/-!
The text of a JSON value tells the value (`Json.eq_of_text_eq`). The proof reads two texts side by
side from the left. A first character tells what kind of value begins (`Json.SameKind`), each value
says itself where it ends, and so whatever stands behind equal texts is equal too
(`Json.chars_append_inj`).
-/

namespace StylePrint.Json

/-! ### First characters -/

/-- A character that stands for the kind of a value. -/
def shape : Json → Char
  | .null => 'n'
  | .bool true => 't'
  | .bool false => 'f'
  | .number _ => '0'
  | .string _ => '"'
  | .array _ => '['
  | .object _ => '{'

/-- The kind of value that a character begins. -/
def shapeOf (c : Char) : Char :=
  if beginsNumber c then '0' else c

/-- The first character of a value's text tells its kind. -/
theorem chars_eq_cons (j : Json) : ∃ c rest, j.chars = c :: rest ∧ shapeOf c = j.shape := by
  cases j with
  | null => exact ⟨_, _, rfl, rfl⟩
  | bool b => cases b <;> exact ⟨_, _, rfl, rfl⟩
  | number n =>
      obtain ⟨c, rest, h, hc⟩ := n.isLexeme_chars.begins
      exact ⟨c, rest, h, if_pos hc⟩
  | string s => exact ⟨_, _, rfl, rfl⟩
  | array items => cases items <;> exact ⟨_, _, rfl, rfl⟩
  | object members =>
      rcases members with _ | ⟨⟨name, value⟩, rest⟩
      · exact ⟨_, _, rfl, rfl⟩
      · exact ⟨_, _, rfl, rfl⟩

theorem shape_eq {j k : Json} {r s : List Char} (h : j.chars ++ r = k.chars ++ s) :
    j.shape = k.shape := by
  obtain ⟨c, rest, hj, hc⟩ := j.chars_eq_cons
  obtain ⟨d, rest', hk, hd⟩ := k.chars_eq_cons
  rw [hj, hk] at h
  rw [← hc, ← hd, (List.cons.inj h).1]

/-- Values of one kind; of the words `true` and `false`, the same word. -/
inductive SameKind : Json → Json → Prop where
  | null : SameKind .null .null
  | bool (b : Bool) : SameKind (.bool b) (.bool b)
  | number (m n : Number) : SameKind (.number m) (.number n)
  | string (s t : String) : SameKind (.string s) (.string t)
  | array (xs ys : List Json) : SameKind (.array xs) (.array ys)
  | object (ms ns : List (String × Json)) : SameKind (.object ms) (.object ns)

theorem sameKind_of_shape_eq {j k : Json} (h : j.shape = k.shape) : SameKind j k := by
  cases j with
  | null =>
      cases k with
      | null => exact .null
      | bool b => cases b <;> simp [shape] at h
      | _ => simp [shape] at h
  | bool b =>
      cases k with
      | bool b' => cases b <;> cases b' <;> first | exact .bool _ | simp [shape] at h
      | _ => cases b <;> simp [shape] at h
  | number m =>
      cases k with
      | number n => exact .number m n
      | bool b => cases b <;> simp [shape] at h
      | _ => simp [shape] at h
  | string s =>
      cases k with
      | string t => exact .string s t
      | bool b => cases b <;> simp [shape] at h
      | _ => simp [shape] at h
  | array xs =>
      cases k with
      | array ys => exact .array xs ys
      | bool b => cases b <;> simp [shape] at h
      | _ => simp [shape] at h
  | object ms =>
      cases k with
      | object ns => exact .object ms ns
      | bool b => cases b <;> simp [shape] at h
      | _ => simp [shape] at h

/-! ### Side by side -/

theorem stops_cons {c : Char} {cs : List Char} (h : isNumeric c = false) : Stops (c :: cs) := by
  rintro _ ⟨⟩
  exact h

/-- What stands behind an item of an array stops a number. -/
theorem stops_itemsTail (items : List Json) (r : List Char) :
    Stops (itemsTail items ++ ']' :: r) := by
  cases items with
  | nil => exact stops_cons rfl
  | cons item rest => exact stops_cons rfl

/-- What stands behind a member of an object stops a number. -/
theorem stops_membersTail (members : List (String × Json)) (r : List Char) :
    Stops (membersTail members ++ '}' :: r) := by
  rcases members with _ | ⟨⟨name, value⟩, rest⟩
  · exact stops_cons rfl
  · exact stops_cons rfl

/-- No value's text begins with a closing bracket or brace. -/
theorem chars_append_ne_close (j : Json) {c : Char} (hc : c = ']' ∨ c = '}') (r s : List Char) :
    j.chars ++ r ≠ c :: s := by
  intro h
  obtain ⟨d, rest, hj, hd⟩ := j.chars_eq_cons
  rw [hj] at h
  obtain rfl := (List.cons.inj h).1
  cases j with
  | bool b => rcases hc with rfl | rfl <;> cases b <;> exact absurd hd (by decide)
  | _ => rcases hc with rfl | rfl <;> exact absurd hd (by simp [shape, shapeOf, beginsNumber])

/-- Where the texts of arrays begin alike, so do their items, written as if behind a comma. -/
theorem itemsTail_of_array {xs ys : List Json} {r s : List Char}
    (h : (array xs).chars ++ r = (array ys).chars ++ s) :
    itemsTail xs ++ ']' :: r = itemsTail ys ++ ']' :: s := by
  cases xs with
  | nil =>
      cases ys with
      | nil => simpa [chars, itemsTail] using h
      | cons y ys =>
          simp only [chars, List.cons_append, List.append_assoc] at h
          exact absurd (List.cons.inj h).2.symm (y.chars_append_ne_close (Or.inl rfl) _ _)
  | cons x xs =>
      cases ys with
      | nil =>
          simp only [chars, List.cons_append, List.append_assoc] at h
          exact absurd (List.cons.inj h).2 (x.chars_append_ne_close (Or.inl rfl) _ _)
      | cons y ys =>
          simp only [chars, List.cons_append, List.append_assoc, List.nil_append] at h
          simpa [itemsTail] using (List.cons.inj h).2

/-- Where the texts of objects begin alike, so do their members, written as if behind a comma. -/
theorem membersTail_of_object {ms ns : List (String × Json)} {r s : List Char}
    (h : (object ms).chars ++ r = (object ns).chars ++ s) :
    membersTail ms ++ '}' :: r = membersTail ns ++ '}' :: s := by
  cases ms with
  | nil =>
      cases ns with
      | nil => simpa [chars, membersTail] using h
      | cons n ns =>
          obtain ⟨name, value⟩ := n
          simp only [chars, quote, List.cons_append, List.append_assoc] at h
          exact absurd (List.cons.inj (List.cons.inj h).2).1 (by decide)
  | cons m ms =>
      obtain ⟨name, value⟩ := m
      cases ns with
      | nil =>
          simp only [chars, quote, List.cons_append, List.append_assoc] at h
          exact absurd (List.cons.inj (List.cons.inj h).2).1 (by decide)
      | cons n ns =>
          obtain ⟨name', value'⟩ := n
          simp only [chars, List.cons_append, List.append_assoc, List.nil_append] at h
          simpa [membersTail] using (List.cons.inj h).2

mutual

/-- **Where two texts of values begin alike, the values are the same**, and so is what follows. -/
theorem chars_append_inj (j k : Json) {r s : List Char} (hr : Stops r) (hs : Stops s)
    (h : j.chars ++ r = k.chars ++ s) : j = k ∧ r = s := by
  cases sameKind_of_shape_eq (shape_eq h) with
  | null => exact ⟨rfl, List.append_cancel_left h⟩
  | bool b => exact ⟨rfl, List.append_cancel_left h⟩
  | number m n =>
      obtain ⟨hchars, hrest⟩ := append_inj_of_stops m.isLexeme_chars.numeric
        n.isLexeme_chars.numeric hr hs h
      exact ⟨congrArg Json.number (Number.chars_inj hchars), hrest⟩
  | string t u =>
      obtain ⟨rfl, hrest⟩ := quote_append_inj h
      exact ⟨rfl, hrest⟩
  | array xs ys =>
      obtain ⟨hitems, hend⟩ := itemsTail_append_inj xs ys (itemsTail_of_array h)
      exact ⟨congrArg Json.array hitems, hend⟩
  | object ms ns =>
      obtain ⟨hmembers, hend⟩ := membersTail_append_inj ms ns (membersTail_of_object h)
      exact ⟨congrArg Json.object hmembers, hend⟩

theorem itemsTail_append_inj : ∀ (xs ys : List Json) {r s : List Char},
    itemsTail xs ++ ']' :: r = itemsTail ys ++ ']' :: s →
      xs = ys ∧ r = s
  | [], [], _, _, h => ⟨rfl, (List.cons.inj h).2⟩
  | [], y :: ys, _, _, h => absurd (List.cons.inj h).1 (by decide)
  | x :: xs, [], _, _, h => absurd (List.cons.inj h).1 (by decide)
  | x :: xs, y :: ys, r, s, h => by
      simp only [itemsTail, List.cons_append, List.append_assoc] at h
      obtain ⟨hitem, hrest⟩ := chars_append_inj x y (stops_itemsTail xs r) (stops_itemsTail ys s)
        (List.cons.inj h).2
      obtain ⟨hitems, hend⟩ := itemsTail_append_inj xs ys hrest
      exact ⟨by rw [hitem, hitems], hend⟩

theorem membersTail_append_inj : ∀ (xs ys : List (String × Json)) {r s : List Char},
    membersTail xs ++ '}' :: r = membersTail ys ++ '}' :: s →
      xs = ys ∧ r = s
  | [], [], _, _, h => ⟨rfl, (List.cons.inj h).2⟩
  | [], (_, _) :: ys, _, _, h => absurd (List.cons.inj h).1 (by decide)
  | (_, _) :: xs, [], _, _, h => absurd (List.cons.inj h).1 (by decide)
  | (name, x) :: xs, (name', y) :: ys, r, s, h => by
      simp only [membersTail, List.cons_append, List.append_assoc] at h
      obtain ⟨rfl, hvalue⟩ := quote_append_inj (List.cons.inj h).2
      obtain ⟨hitem, hrest⟩ := chars_append_inj x y (stops_membersTail xs r)
        (stops_membersTail ys s) (List.cons.inj hvalue).2
      obtain ⟨hmembers, hend⟩ := membersTail_append_inj xs ys hrest
      exact ⟨by rw [hitem, hmembers], hend⟩

end

/-- **Values with one text are the same value.** -/
theorem eq_of_text_eq {j k : Json} (h : j.text = k.text) : j = k := by
  have hchars : j.chars = k.chars := String.ofList_injective h
  have hnil : Stops [] := nofun
  exact (chars_append_inj j k (r := []) (s := []) hnil hnil (by rw [hchars])).1

end StylePrint.Json
