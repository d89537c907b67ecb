import Mathlib.Data.List.Induction
import Mathlib.Data.List.Infix
import StylePrint.Proofs.Separated
import StylePrint.UrlPath
/-!
Paths in normal form. Segments are taken onto a stack (`push_cases`), so normal form only leaves
segments out (`sublist_settle`): what is left is no longer than the path, holds no segment that says
nothing, and still ends in the name that the path ends in (`settle_concat`).
-/

namespace StylePrint.UrlPath

/-! ### Segments -/

/-- No segment holds a slash. -/
theorem slash_not_mem {cs : List Char} {segment : Segment} (h : segment ∈ cs.splitOn '/') :
    '/' ∉ segment := by
  induction cs generalizing segment with
  | nil =>
      obtain rfl : segment = [] := by simpa [List.splitOn] using h
      exact List.not_mem_nil
  | cons c cs ih =>
      rw [List.splitOn_cons_eq_if_modifyHead] at h
      split at h
      · rcases List.mem_cons.mp h with rfl | h
        · exact List.not_mem_nil
        · exact ih h
      · rename_i hc
        cases hsegments : cs.splitOn '/' with
        | nil => exact absurd hsegments (List.splitOn_ne_nil _ _)
        | cons first rest =>
            rw [hsegments] at h ih
            rcases List.mem_cons.mp h with rfl | h
            · have hslash : '/' ≠ c := fun heq => hc (beq_iff_eq.mpr heq.symm)
              have hfirst : '/' ∉ first := ih List.mem_cons_self
              simp [hslash, hfirst]
            · exact ih (List.mem_cons_of_mem first h)

theorem slash_not_mem_last {cs : List Char} {segments : List Segment} {name : Segment}
    (h : cs.splitOn '/' = segments ++ [name]) : '/' ∉ name := by
  have hmem : name ∈ cs.splitOn '/' := by
    rw [h]
    exact List.mem_append_right segments List.mem_cons_self
  exact slash_not_mem hmem

/-- A path that begins with a name is not rooted. -/
theorem not_isRooted {cs : List Char} {first : Segment} {rest : List Segment}
    (h : cs.splitOn '/' = first :: rest) (hfirst : first ≠ []) : isRooted cs = false := by
  cases cs with
  | nil => rfl
  | cons c cs =>
      refine decide_eq_false ?_
      rintro ⟨⟩
      rw [List.splitOn_cons_self] at h
      exact hfirst (List.cons.inj h).1.symm

theorem isRooted_append {cs : List Char} (h : cs ≠ []) (rest : List Char) :
    isRooted (cs ++ rest) = isRooted cs := by
  cases cs with
  | nil => exact absurd rfl h
  | cons c cs => rfl

/-- The last slash of a path stands in front of its name. -/
theorem exists_last_slash {cs : List Char} (h : '/' ∈ cs) :
    ∃ parent name, cs = parent ++ '/' :: name ∧ '/' ∉ name := by
  induction cs with
  | nil => cases h
  | cons c cs ih =>
      by_cases hcs : '/' ∈ cs
      · obtain ⟨parent, name, rfl, hname⟩ := ih hcs
        exact ⟨c :: parent, name, rfl, hname⟩
      · rcases List.mem_cons.mp h with rfl | h
        · exact ⟨[], cs, rfl, hcs⟩
        · exact absurd h hcs

/-! ### Slashes at the end -/

theorem trimSlashes_concat_slash (cs : List Char) :
    trimSlashes (cs ++ ['/']) = trimSlashes cs := by
  simp [trimSlashes]

theorem trimSlashes_concat {c : Char} (h : c ≠ '/') (cs : List Char) :
    trimSlashes (cs ++ [c]) = cs ++ [c] := by
  simp [trimSlashes, h]

theorem trimSlashes_isPrefix (cs : List Char) : trimSlashes cs <+: cs := by
  induction cs using List.reverseRecOn with
  | nil => exact List.prefix_rfl
  | append_singleton cs c ih =>
      by_cases hc : c = '/'
      · subst hc
        rw [trimSlashes_concat_slash]
        exact ih.trans (List.prefix_append cs ['/'])
      · rw [trimSlashes_concat hc]

/-- Whether a segment is a name, and not one of those that say nothing or lead up. -/
def IsName (segment : Segment) : Prop :=
  segment ≠ [] ∧ segment ≠ here ∧ segment ≠ up

/-! ### Taking segments -/

/-- What taking a segment onto a stack does: nothing for a segment that says nothing, and for a name
or a way up that stays; a way up undoes the name before it; and at the root it does nothing. -/
theorem push_cases (rooted : Bool) (stack : List Segment) (segment : Segment) :
    ((segment = [] ∨ segment = here) ∧ push rooted stack segment = stack) ∨
    (IsName segment ∧ push rooted stack segment = segment :: stack) ∨
    (segment = up ∧ ∃ last rest, stack = last :: rest ∧ last ≠ up ∧
      push rooted stack segment = rest) ∨
    (segment = up ∧ rooted = false ∧ push rooted stack segment = up :: stack) ∨
    (segment = up ∧ rooted = true ∧ stack.head?.getD up = up ∧
      push rooted stack segment = stack) := by
  unfold push
  split
  · rename_i hnothing
    exact .inl ⟨hnothing, rfl⟩
  · rename_i hsomething
    obtain ⟨hempty, hhere⟩ := not_or.mp hsomething
    split
    · rename_i hup
      split
      · rename_i last rest
        split
        · rename_i hlast
          cases rooted with
          | true => exact .inr (.inr (.inr (.inr ⟨hup, rfl, hlast, rfl⟩)))
          | false => exact .inr (.inr (.inr (.inl ⟨hup, rfl, rfl⟩)))
        · rename_i hlast
          exact .inr (.inr (.inl ⟨hup, last, rest, rfl, hlast, rfl⟩))
      · cases rooted with
        | true => exact .inr (.inr (.inr (.inr ⟨hup, rfl, rfl, rfl⟩)))
        | false => exact .inr (.inr (.inr (.inl ⟨hup, rfl, rfl⟩)))
    · rename_i hup
      exact .inr (.inl ⟨⟨hempty, hhere, hup⟩, rfl⟩)

/-- What a stack of segments in normal form holds: no segments that say nothing, and at the root
none that leads up. -/
def Stacked (rooted : Bool) (stack : List Segment) : Prop :=
  ∀ segment ∈ stack, segment ≠ [] ∧ segment ≠ here ∧ (rooted = true → segment ≠ up)

theorem Stacked.push {rooted : Bool} {stack : List Segment} (h : Stacked rooted stack)
    (segment : Segment) : Stacked rooted (push rooted stack segment) := by
  rcases push_cases rooted stack segment with ⟨-, hpush⟩ | ⟨hname, hpush⟩ |
    ⟨-, last, rest, rfl, -, hpush⟩ | ⟨-, rfl, hpush⟩ | ⟨-, -, -, hpush⟩
  · rwa [hpush]
  · rw [hpush]
    exact List.forall_mem_cons.mpr ⟨⟨hname.1, hname.2.1, fun _ => hname.2.2⟩, h⟩
  · rw [hpush]
    exact (List.forall_mem_cons.mp h).2
  · rw [hpush]
    exact List.forall_mem_cons.mpr ⟨⟨by decide, by decide, nofun⟩, h⟩
  · rwa [hpush]

/-! ### Segments in normal form -/

/-- Normal form only leaves segments out. -/
theorem sublist_settle (rooted : Bool) (segments : List Segment) :
    (settle rooted segments).Sublist segments := by
  have along : ∀ segments stack : List Segment,
      (segments.foldl (push rooted) stack).reverse.Sublist (stack.reverse ++ segments) := by
    intro segments
    induction segments with
    | nil =>
        intro stack
        rw [List.append_nil]
        exact List.Sublist.refl _
    | cons segment rest ih =>
        intro stack
        have hpush : (push rooted stack segment).reverse.Sublist (stack.reverse ++ [segment]) := by
          rw [← List.reverse_cons, List.reverse_sublist]
          rcases push_cases rooted stack segment with ⟨-, hpush⟩ | ⟨-, hpush⟩ |
            ⟨-, last, rest, rfl, -, hpush⟩ | ⟨rfl, -, hpush⟩ | ⟨-, -, -, hpush⟩
          · rw [hpush]
            exact List.sublist_cons_self segment stack
          · rw [hpush]
          · rw [hpush]
            exact (List.sublist_cons_self last rest).trans (List.sublist_cons_self _ _)
          · rw [hpush]
          · rw [hpush]
            exact List.sublist_cons_self segment stack
        have happend := hpush.append (List.Sublist.refl rest)
        rw [List.append_assoc, List.singleton_append] at happend
        exact (ih (push rooted stack segment)).trans happend
  exact along segments []

/-- No segment of a normal form is empty. -/
theorem ne_nil_of_mem_settle {rooted : Bool} {segments : List Segment} {segment : Segment}
    (h : segment ∈ settle rooted segments) : segment ≠ [] := by
  have along : ∀ segments stack : List Segment, Stacked rooted stack →
      Stacked rooted (segments.foldl (push rooted) stack) := by
    intro segments
    induction segments with
    | nil => exact fun stack hstack => hstack
    | cons segment rest ih => exact fun stack hstack => ih _ (hstack.push segment)
  exact (along segments [] nofun segment (List.mem_reverse.mp h)).1

/-- A name at the end stays. -/
theorem settle_concat {name : Segment} (h : IsName name) (rooted : Bool) (segments : List Segment) :
    settle rooted (segments ++ [name]) = settle rooted segments ++ [name] := by
  have hpush : ∀ stack, push rooted stack name = name :: stack := by
    intro stack
    unfold push
    rw [if_neg (not_or.mpr ⟨h.1, h.2.1⟩), if_neg h.2.2]
  rw [settle, List.foldl_append, List.foldl_cons, List.foldl_nil, hpush, List.reverse_cons, settle]

/-! ### Paths in normal form -/

theorem intercalate_cons {xs : List Segment} (h : xs ≠ []) (x : Segment) :
    ['/'].intercalate (x :: xs) = x ++ '/' :: ['/'].intercalate xs := by
  cases xs with
  | nil => exact absurd rfl h
  | cons y ys => rw [List.intercalate_cons_cons, List.append_assoc, List.singleton_append]

/-- Fewer segments spell a shorter path. -/
theorem sublist_intercalate {xs ys : List Segment} (h : xs.Sublist ys) :
    (['/'].intercalate xs).Sublist (['/'].intercalate ys) := by
  induction h with
  | slnil => exact List.Sublist.refl _
  | @cons xs ys y h ih =>
      cases ys with
      | nil =>
          obtain rfl := List.sublist_nil.mp h
          exact List.nil_sublist _
      | cons z zs =>
          rw [List.intercalate_cons_cons]
          exact ih.trans (List.sublist_append_right _ _)
  | @cons_cons xs ys y h ih =>
      cases xs with
      | nil =>
          cases ys with
          | nil => exact List.Sublist.refl _
          | cons z zs =>
              rw [intercalate_cons (List.cons_ne_nil z zs), List.intercalate_singleton]
              exact List.sublist_append_left _ _
      | cons x xs =>
          have hys : ys ≠ [] := by
            rintro rfl
            cases h
          rw [intercalate_cons (List.cons_ne_nil x xs), intercalate_cons hys]
          exact (List.Sublist.refl y).append (ih.cons_cons '/')

section Spell

variable {segments : List Segment}

/-- Where a segment is left, a relative path is its segments alone. -/
theorem spell_relative (hsegments : ∀ segment ∈ segments, segment ≠ [] ∧ '/' ∉ segment)
    (hne : segments ≠ []) : spell false segments = ['/'].intercalate segments := by
  refine if_neg ?_
  intro hempty
  have hsplit : (['/'].intercalate segments).splitOn '/' = segments :=
    List.splitOn_intercalate '/' (fun segment h => (hsegments segment h).2) hne
  rw [hempty] at hsplit
  have hmem : [] ∈ segments := hsplit ▸ List.mem_cons_self
  exact (hsegments [] hmem).1 rfl

/-- The segments of a spelled path are those that are spelled, behind an empty one when the path is
rooted. -/
theorem splitOn_spell (hsegments : ∀ segment ∈ segments, segment ≠ [] ∧ '/' ∉ segment)
    (hne : segments ≠ []) (rooted : Bool) :
    (spell rooted segments).splitOn '/' = if rooted then [] :: segments else segments := by
  have hsplit : (['/'].intercalate segments).splitOn '/' = segments :=
    List.splitOn_intercalate '/' (fun segment h => (hsegments segment h).2) hne
  cases rooted with
  | true => exact (List.splitOn_cons_self '/' _).trans (congrArg ([] :: ·) hsplit)
  | false =>
      rw [spell_relative hsegments hne, hsplit]
      rfl

theorem isRooted_spell (hsegments : ∀ segment ∈ segments, segment ≠ [] ∧ '/' ∉ segment)
    (rooted : Bool) : isRooted (spell rooted segments) = rooted := by
  cases rooted with
  | true => rfl
  | false =>
      cases segments with
      | nil => rfl
      | cons first rest =>
          exact not_isRooted (splitOn_spell hsegments (List.cons_ne_nil first rest) false)
            (hsegments first List.mem_cons_self).1

end Spell

section NormalForm

variable {cs : List Char} {segments : List Segment} {name : Segment}

/-- What normal form leaves of a path are segments that can be spelled. -/
theorem mem_settle (rooted : Bool) (cs : List Char) :
    ∀ segment ∈ settle rooted (cs.splitOn '/'), segment ≠ [] ∧ '/' ∉ segment := by
  intro segment h
  exact ⟨ne_nil_of_mem_settle h, slash_not_mem ((sublist_settle rooted _).subset h)⟩

theorem settle_ne_nil (hname : IsName name) (hsegments : cs.splitOn '/' = segments ++ [name])
    (rooted : Bool) : settle rooted (cs.splitOn '/') ≠ [] := by
  rw [hsegments, settle_concat hname]
  exact List.append_ne_nil_of_right_ne_nil _ (List.cons_ne_nil name [])

theorem normalizeChars_of_path (habsolute : isAbsoluteChars cs = false) :
    normalizeChars cs = spell (isRooted cs) (settle (isRooted cs) (cs.splitOn '/')) := by
  rw [normalizeChars, habsolute]
  rfl

theorem isRooted_normalizeChars (habsolute : isAbsoluteChars cs = false) :
    isRooted (normalizeChars cs) = isRooted cs := by
  rw [normalizeChars_of_path habsolute, isRooted_spell (mem_settle _ cs)]

/-- A path that ends in a name has a normal form that ends in it. -/
theorem splitOn_normalizeChars (habsolute : isAbsoluteChars cs = false) (hname : IsName name)
    (hsegments : cs.splitOn '/' = segments ++ [name]) :
    (normalizeChars cs).splitOn '/'
      = (if isRooted cs then [[]] else []) ++ settle (isRooted cs) segments ++ [name] := by
  have hsplit := splitOn_spell (mem_settle (isRooted cs) cs)
    (settle_ne_nil hname hsegments (isRooted cs)) (isRooted cs)
  rw [normalizeChars_of_path habsolute, hsplit, hsegments, settle_concat hname]
  split
  · rfl
  · rfl

/-- A path that ends in a name is not shorter than its normal form. -/
theorem sublist_normalizeChars (hname : IsName name)
    (hsegments : cs.splitOn '/' = segments ++ [name]) : (normalizeChars cs).Sublist cs := by
  cases habsolute : isAbsoluteChars cs with
  | true =>
      rw [normalizeChars, if_pos habsolute]
  | false =>
      rw [normalizeChars_of_path habsolute]
      cases hrooted : isRooted cs with
      | true =>
          obtain ⟨rest, rfl⟩ := List.head?_eq_some_iff.mp (of_decide_eq_true hrooted)
          have hsplit : ('/' :: rest).splitOn '/' = [] :: rest.splitOn '/' :=
            List.splitOn_cons_self '/' rest
          have hsettle : settle true ([] :: rest.splitOn '/') = settle true (rest.splitOn '/') :=
            rfl
          have hrest := sublist_intercalate (sublist_settle true (rest.splitOn '/'))
          rw [List.intercalate_splitOn] at hrest
          rw [hsplit, hsettle]
          exact hrest.cons_cons '/'
      | false =>
          have hsettle := sublist_intercalate (sublist_settle false (cs.splitOn '/'))
          rw [List.intercalate_splitOn] at hsettle
          rwa [spell_relative (mem_settle false cs) (settle_ne_nil hname hsegments false)]

end NormalForm

end StylePrint.UrlPath
