import StylePrint.Tracker
/-!
Carets: a line and a column of a text that is being written. `Caret.walk` goes over the text one
character at a time, which is the plainest way to say what place a text reaches.

* `Tracker.caret_advance`: a tracker that goes past a whole text at once ends at the place that
  walking it reaches, saturation at the greatest word included.
* `Caret.before_walk`: while both numbers have room, every character moves the caret strictly on.
-/

namespace StylePrint

open StylePrint.SourceMap

/-! ### Saturation -/

/-- A word is its own nearest word. -/
@[simp] theorem saturate_toNat (w : UInt32) : saturate w.toNat = w := by
  apply UInt32.toNat_inj.mp
  have := w.toNat_lt
  rw [toNat_saturate]
  omega

/-- Saturating early or late makes no difference to a sum. -/
theorem saturate_saturate_add (a b : Nat) :
    saturate ((saturate a).toNat + b) = saturate (a + b) := by
  apply UInt32.toNat_inj.mp
  simp only [toNat_saturate]
  omega

/-- Every character takes at least one unit. -/
theorem unitsOf_pos (c : Char) : 0 < Text.unitsOf c := by
  unfold Text.unitsOf
  split <;> omega

/-- A line break takes one unit. -/
@[simp] theorem unitsOf_newline : Text.unitsOf '\n' = 1 := rfl

/-- A line and a column of a text, both from one on; columns count UTF-16 code units. -/
structure Caret where
  line : UInt32
  column : UInt32
  deriving DecidableEq, Repr

namespace Caret

/-- The beginning of a text. -/
def start : Caret := ⟨1, 1⟩

/-- Goes past one character: a line break begins the next line, any other character takes its
units. Both numbers stop at the greatest word. -/
def step (k : Caret) (c : Char) : Caret :=
  if c = '\n' then ⟨saturate (k.line.toNat + 1), 1⟩
  else ⟨k.line, saturate (k.column.toNat + Text.unitsOf c)⟩

/-- Goes past characters one by one. -/
def walk (k : Caret) (cs : List Char) : Caret :=
  cs.foldl step k

/-- The place in a generated text that a caret stands at: columns count from zero there. -/
def place (k : Caret) : Place :=
  ⟨k.line, saturate (k.column.toNat - 1)⟩

@[simp] theorem walk_nil (k : Caret) : k.walk [] = k := rfl

@[simp] theorem walk_cons (k : Caret) (c : Char) (cs : List Char) :
    k.walk (c :: cs) = (k.step c).walk cs := rfl

@[simp] theorem walk_append (k : Caret) (s t : List Char) :
    k.walk (s ++ t) = (k.walk s).walk t :=
  List.foldl_append

/-! ### Where a walk ends -/

/-- The line reached counts the line breaks. -/
theorem line_walk (k : Caret) (cs : List Char) :
    (k.walk cs).line = saturate (k.line.toNat + cs.count '\n') := by
  induction cs generalizing k with
  | nil => simp
  | cons c cs ih =>
      rw [walk_cons, ih]
      by_cases hc : c = '\n'
      · subst hc
        simp only [step, if_pos, List.count_cons_self]
        rw [saturate_saturate_add]
        congr 1
        omega
      · simp only [step, if_neg hc, List.count_cons_of_ne hc]

/-- The column reached is told by the characters behind the last line break, and counts on from
the column of the start when there is none. -/
theorem column_walk (k : Caret) (cs : List Char) :
    (k.walk cs).column = match Tracker.lastLine? cs with
      | some last => saturate (Text.units last + 1)
      | none => saturate (k.column.toNat + Text.units cs) := by
  induction cs generalizing k with
  | nil => simp [Tracker.lastLine?]
  | cons c cs ih =>
      rw [walk_cons, ih, Tracker.lastLine?]
      cases hlast : Tracker.lastLine? cs with
      | some last => rfl
      | none =>
          by_cases hc : c = '\n'
          · -- the break read here is the last one
            subst hc
            simp only [step, if_pos, Option.none_or]
            congr 1
            exact Nat.add_comm _ _
          · simp only [step, if_neg hc, Option.none_or, Text.units_cons]
            rw [saturate_saturate_add, Nat.add_assoc]

/-! ### Strict progress -/

/-- Whether one caret stands before another: by line, then by column. -/
def Before (a b : Caret) : Prop :=
  a.line < b.line ∨ a.line = b.line ∧ a.column < b.column

theorem Before.trans {a b c : Caret} (hab : a.Before b) (hbc : b.Before c) : a.Before c := by
  rcases hab with h | ⟨h, h'⟩
  · rcases hbc with g | ⟨g, -⟩
    · exact Or.inl (UInt32.lt_trans h g)
    · exact Or.inl (g ▸ h)
  · rcases hbc with g | ⟨g, g'⟩
    · exact Or.inl (h ▸ g)
    · exact Or.inr ⟨h.trans g, UInt32.lt_trans h' g'⟩

/-- Whether `n` more units cannot make a line or a column stop at the greatest word. -/
def HasRoom (k : Caret) (n : Nat) : Prop :=
  k.line.toNat + n ≤ 4294967295 ∧ k.column.toNat + n ≤ 4294967295

theorem HasRoom.mono {k : Caret} {m n : Nat} (h : k.HasRoom n) (hmn : m ≤ n) : k.HasRoom m :=
  ⟨by have := h.1; omega, by have := h.2; omega⟩

/-- At the beginning of a text there is room for all units below the greatest word. -/
theorem hasRoom_start {n : Nat} (h : n < 4294967295) : start.HasRoom n := by
  have hline : start.line.toNat = 1 := rfl
  have hcolumn : start.column.toNat = 1 := rfl
  constructor <;> omega

/-- A character uses up the room it takes. -/
theorem HasRoom.step {k : Caret} {c : Char} {n : Nat} (h : k.HasRoom (Text.unitsOf c + n)) :
    (k.step c).HasRoom n := by
  obtain ⟨hl, hc⟩ := h
  have hpos := unitsOf_pos c
  unfold Caret.step
  by_cases hn : c = '\n'
  · subst hn
    rw [if_pos rfl]
    refine ⟨?_, ?_⟩
    · simp only [toNat_saturate, unitsOf_newline] at *
      omega
    · simp only [unitsOf_newline] at hc
      show (1 : UInt32).toNat + n ≤ 4294967295
      have : (1 : UInt32).toNat = 1 := rfl
      omega
  · rw [if_neg hn]
    refine ⟨?_, ?_⟩
    · show k.line.toNat + n ≤ 4294967295
      omega
    · simp only [toNat_saturate]
      omega

theorem HasRoom.walk {k : Caret} {cs : List Char} {n : Nat} (h : k.HasRoom (Text.units cs + n)) :
    (k.walk cs).HasRoom n := by
  induction cs generalizing k with
  | nil => exact h.mono (by simp)
  | cons c cs ih =>
      apply ih
      apply HasRoom.step (c := c)
      rw [Text.units_cons] at h
      exact h.mono (by omega)

/-- While there is room, a character moves the caret strictly on. -/
theorem before_step {k : Caret} {c : Char} (h : k.HasRoom (Text.unitsOf c)) :
    k.Before (k.step c) := by
  obtain ⟨hl, hc⟩ := h
  have hpos := unitsOf_pos c
  unfold Caret.step
  by_cases hn : c = '\n'
  · rw [if_pos hn]
    refine Or.inl (UInt32.lt_iff_toNat_lt.mpr ?_)
    simp only [toNat_saturate]
    omega
  · rw [if_neg hn]
    refine Or.inr ⟨rfl, UInt32.lt_iff_toNat_lt.mpr ?_⟩
    simp only [toNat_saturate]
    omega

/-- While there is room, a text that is not empty moves the caret strictly on. -/
theorem before_walk {k : Caret} {cs : List Char} (hne : cs ≠ [])
    (h : k.HasRoom (Text.units cs)) : k.Before (k.walk cs) := by
  induction cs generalizing k with
  | nil => exact absurd rfl hne
  | cons c cs ih =>
      rw [Text.units_cons] at h
      have first : k.Before (k.step c) := before_step (h.mono (by omega))
      rw [walk_cons]
      cases cs with
      | nil => exact first
      | cons d ds => exact first.trans (ih (by simp) h.step)

/-- No walk from the start reaches column zero. -/
theorem column_pos_walk {k : Caret} (cs : List Char) (h : 0 < k.column.toNat) :
    0 < (k.walk cs).column.toNat := by
  induction cs generalizing k with
  | nil => exact h
  | cons c cs ih =>
      apply ih
      unfold Caret.step
      split
      · show 0 < (1 : UInt32).toNat
        decide
      · simp only [toNat_saturate]
        omega

end Caret

/-! ### Trackers -/

namespace Tracker

/-- The line and column a tracker has reached. -/
def caret (t : Tracker) : Caret :=
  ⟨t.line, t.column⟩

/-- A tracker goes past a text as walking it does, and keeps everything else. -/
theorem advance_eq_walk (t : Tracker) (text : String) :
    t.advance text = { t with
      line := (t.caret.walk text.toList).line
      column := (t.caret.walk text.toList).column } := by
  rw [Caret.line_walk, Caret.column_walk]
  rfl

/-- The place a tracker reaches is the one that walking the text reaches. -/
@[simp] theorem caret_advance (t : Tracker) (text : String) :
    (t.advance text).caret = t.caret.walk text.toList := by
  rw [advance_eq_walk]
  rfl

@[simp] theorem draft_advance (t : Tracker) (text : String) :
    (t.advance text).draft = t.draft := rfl

@[simp] theorem files_advance (t : Tracker) (text : String) :
    (t.advance text).files = t.files := rfl

@[simp] theorem caret_start (options : Options) : (start options).caret = Caret.start := rfl

end Tracker

end StylePrint
