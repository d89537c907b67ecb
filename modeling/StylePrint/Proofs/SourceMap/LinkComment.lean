import Mathlib.Data.List.TakeWhile
import StylePrint.SourceMap.LinkComment
/-!
The annotation found behind other text. An annotation that is a block comment begins with a mark
which no annotation that begins earlier gets past: earlier text may hold comments, whole or
unfinished annotations, or the beginning of one, and still the last block comment counts. So the
address of a block comment at the end, in any of its forms, is found behind every text
(`LinkComment.find?_wrap`), and one that breaks off is found behind none
(`LinkComment.find?_broken`).
-/

namespace StylePrint.SourceMap.LinkComment

/-- What stands behind the first slash of a block annotation that has its mark at once, up to the
address. -/
def fence : List Char := '*' :: '#' :: keyword

/-- Whether no address that begins before the characters ends among them or behind: the keyword's
blank and its first letter stand there. -/
def Barred (cs : List Char) : Prop :=
  ∃ before behind, cs = before ++ ' ' :: 's' :: behind

theorem barred_keyword (before behind : List Char) : Barred (before ++ (keyword ++ behind)) :=
  ⟨before, keyword.drop 2 ++ behind, rfl⟩

/-! ### Taking literals off -/

theorem after?_eq_some {literal cs rest : List Char} :
    after? literal cs = some rest ↔ cs = literal ++ rest := by
  rw [after?]
  constructor
  · intro h
    split at h
    · rename_i hprefix
      obtain ⟨rest, rfl⟩ := List.isPrefixOf_iff_prefix.mp hprefix
      rw [List.drop_left] at h
      rw [Option.some.inj h]
    · cases h
  · rintro rfl
    rw [if_pos (List.isPrefixOf_iff_prefix.mpr (List.prefix_append literal rest)), List.drop_left]

theorem after?_append (literal rest : List Char) : after? literal (literal ++ rest) = some rest :=
  after?_eq_some.mpr rfl

/-- A literal without stars is taken off the text before a star. -/
theorem after?_star {literal s t rest : List Char} (hliteral : '*' ∉ literal)
    (h : after? literal (s ++ '*' :: t) = some rest) :
    ∃ s', s = literal ++ s' ∧ rest = s' ++ '*' :: t := by
  rcases List.append_eq_append_iff.mp (after?_eq_some.mp h) with ⟨u, hu, hstar⟩ | ⟨s', hs, hrest⟩
  · cases u with
    | nil =>
        rw [List.append_nil] at hu
        exact ⟨[], by rw [hu, List.append_nil], hstar.symm⟩
    | cons c u =>
        obtain ⟨rfl, -⟩ := List.cons.inj hstar
        exact absurd (hu ▸ List.mem_append_right s List.mem_cons_self) hliteral
  · exact ⟨s', hs, hrest⟩

/-! ### What stops an address -/

/-- Only white space and the closing mark may stand behind an address. -/
theorem mem_of_closesBlock {cs : List Char} {c : Char} (h : closesBlock cs = true) (hc : c ∈ cs) :
    Text.isBlank c = true ∨ c = '*' ∨ c = '/' := by
  rw [← List.takeWhile_append_dropWhile (p := Text.isBlank) (l := cs)] at hc
  rcases List.mem_append.mp hc with hblank | hrest
  · exact .inl (List.mem_takeWhile_imp hblank)
  · unfold closesBlock at h
    split at h
    · rename_i tail htail
      rw [after?_eq_some.mp htail] at hrest
      rcases List.mem_append.mp hrest with hmark | htail
      · right
        simpa using hmark
      · exact .inl (List.all_eq_true.mp h c htail)
    · cases h

/-- Behind its address an annotation holds nothing but white space and the closing mark. -/
theorem blockAddress?_eq_none {cs : List Char} {c : Char}
    (hc : c ∈ cs.dropWhile isAddressChar) (hblank : Text.isBlank c = false) (hstar : c ≠ '*')
    (hslash : c ≠ '/') : blockAddress? cs = none := by
  have hclose : ¬ closesBlock (cs.dropWhile isAddressChar) = true := by
    intro h
    rcases mem_of_closesBlock h hc with h | h | h
    · exact Bool.noConfusion (hblank.symm.trans h)
    · exact hstar h
    · exact hslash h
  have htail : ¬ isBlankTail (cs.dropWhile isAddressChar) = true := by
    intro h
    exact Bool.noConfusion (hblank.symm.trans (List.all_eq_true.mp h c hc))
  rw [blockAddress?, if_neg hclose, if_neg (htail ∘ And.left)]

/-- What stands behind a character that is dropped by no run is not dropped. -/
theorem mem_dropWhile {p : Char → Bool} {a : Char} (ha : p a = false) (b : Char)
    (s t : List Char) : b ∈ (s ++ a :: b :: t).dropWhile p := by
  induction s with
  | nil => simp [ha]
  | cons c s ih =>
      rw [List.cons_append, List.dropWhile_cons]
      split
      · exact ih
      · simp

/-- The keyword stops every address that begins before it. -/
theorem mem_dropWhile_barred {y : List Char} (hy : Barred y) (s : List Char) :
    's' ∈ (s ++ '*' :: y).dropWhile isAddressChar := by
  obtain ⟨before, behind, rfl⟩ := hy
  have h := mem_dropWhile (p := isAddressChar) (a := ' ') (by decide) 's' (s ++ '*' :: before)
    behind
  rwa [List.append_assoc] at h

/-! ### No annotation begins before the mark -/

/-- Where a lead is taken off before a star, the star stays. -/
theorem afterLead?_star {s y rest : List Char} (h : afterLead? (s ++ '*' :: y) = some rest) :
    ∃ s', rest = s' ++ '*' :: y := by
  have hdrop : (s ++ '*' :: y).dropWhile Text.isBlank
      = s.dropWhile Text.isBlank ++ '*' :: y := by
    rw [List.dropWhile_append]
    split
    · rename_i hempty
      rw [List.isEmpty_iff.mp hempty]
      rfl
    · rfl
  rw [afterLead?, hdrop] at h
  split at h
  · exact ⟨_, (Option.some.inj h).symm⟩
  · cases hslashes : after? ['/', '/'] (s.dropWhile Text.isBlank ++ '*' :: y) with
    | none =>
        rw [hslashes] at h
        exact ⟨_, (Option.some.inj h).symm⟩
    | some behind =>
        rw [hslashes] at h
        obtain ⟨s', -, hrest⟩ := after?_star (by decide) hslashes
        exact ⟨s', (Option.some.inj h).symm.trans hrest⟩
  · cases h

theorem afterKeyword?_star {s y rest : List Char}
    (h : afterKeyword? (s ++ '*' :: y) = some rest) : ∃ s', rest = s' ++ '*' :: y := by
  cases s with
  | nil => exact nomatch (h : none = some rest)
  | cons mark s =>
      rw [List.cons_append, afterKeyword?] at h
      split at h
      · obtain ⟨s', -, hrest⟩ := after?_star (by decide) h
        exact ⟨s', hrest⟩
      · cases h

section Barred

variable {y : List Char} (hy : Barred y)
include hy

theorem line?_barred (s : List Char) : line? (s ++ '*' :: y) = none := by
  rw [Option.eq_none_iff_forall_ne_some]
  intro address h
  simp only [line?, Option.bind_eq_bind, Option.bind_eq_some_iff] at h
  obtain ⟨inside, hslashes, behind, hkeyword, h⟩ := h
  obtain ⟨s', -, rfl⟩ := after?_star (by decide) hslashes
  obtain ⟨s', rfl⟩ := afterKeyword?_star hkeyword
  split at h
  · rename_i htail
    have hs := List.all_eq_true.mp htail 's' (mem_dropWhile_barred hy s')
    exact absurd hs (by decide)
  · cases h

theorem block?_barred {s : List Char} (hs : s ≠ ['/']) : block? (s ++ '*' :: y) = none := by
  rw [Option.eq_none_iff_forall_ne_some]
  intro address h
  simp only [block?, Option.bind_eq_bind, Option.bind_eq_some_iff] at h
  obtain ⟨inside, hmark, behind, hlead, found, hkeyword, h⟩ := h
  have hinside : ∃ s', inside = s' ++ '*' :: y := by
    have happend := after?_eq_some.mp hmark
    rcases s with _ | ⟨c, _ | ⟨d, s'⟩⟩
    · cases happend
    · obtain ⟨rfl, -⟩ := List.cons.inj happend
      exact absurd rfl hs
    · obtain ⟨-, happend⟩ := List.cons.inj happend
      exact ⟨s', (List.cons.inj happend).2.symm⟩
  obtain ⟨s', rfl⟩ := hinside
  obtain ⟨s', rfl⟩ := afterLead?_star hlead
  obtain ⟨s', rfl⟩ := afterKeyword?_star hkeyword
  rw [blockAddress?_eq_none (mem_dropWhile_barred hy s') (by decide) (by decide) (by decide)] at h
  cases h

theorem whole?_barred {s : List Char} (hs : s ≠ ['/']) : whole? (s ++ '*' :: y) = none := by
  rw [whole?, block?_barred hy hs, line?_barred hy, Option.none_or]

/-- **No annotation begins before the mark of a block annotation.** -/
theorem find?_barred (c : List Char) : find? (c ++ '/' :: '*' :: y) = find? ('/' :: '*' :: y) := by
  induction c with
  | nil => rfl
  | cons d c ih =>
      have hwhole : whole? (d :: (c ++ '/' :: '*' :: y)) = none := by
        have h := whole?_barred (s := d :: (c ++ ['/'])) hy (by simp)
        rwa [List.cons_append, List.append_assoc] at h
      rw [List.cons_append, find?, hwhole, Option.none_or, ih]

end Barred

theorem find?_fence (c x : List Char) :
    find? (c ++ '/' :: (fence ++ x)) = find? ('/' :: (fence ++ x)) :=
  find?_barred (barred_keyword ['#'] x) c

/-! ### Forms of a block annotation -/

/-- A form that a block annotation may have around its address. -/
structure BlockForm where
  /-- What stands before the mark. -/
  lead : List Char
  mark : Char
  /-- What stands between the address and the closing mark. -/
  gap : List Char
  /-- What stands behind the closing mark. -/
  tail : List Char
  lead_eq : lead = [] ∨
    ∃ blank, isBlankTail blank = true ∧ (lead = blank ++ ['\n'] ∨ lead = blank ++ ['\n', '/', '/'])
  mark_eq : mark = '#' ∨ mark = '@'
  gap_blank : isBlankTail gap = true
  tail_blank : isBlankTail tail = true

namespace BlockForm

/-- An annotation with an address. -/
def wrap (form : BlockForm) (address : List Char) : List Char :=
  '/' :: '*' :: (form.lead ++ form.mark :: (keyword ++ (address ++
    (form.gap ++ '*' :: '/' :: form.tail))))

variable (form : BlockForm)

theorem mark_not_blank : Text.isBlank form.mark = false := by
  rcases form.mark_eq with h | h
  · rw [h]
    rfl
  · rw [h]
    rfl

/-- The lead is taken off, up to the mark. -/
theorem afterLead?_lead (x : List Char) :
    afterLead? (form.lead ++ form.mark :: x) = some (form.mark :: x) := by
  have hmark : ¬ Text.isBlank form.mark = true := Bool.eq_false_iff.mp form.mark_not_blank
  have hslashes : after? ['/', '/'] (form.mark :: x) = none := by
    rcases form.mark_eq with h | h
    · rw [h]
      rfl
    · rw [h]
      rfl
  rcases form.lead_eq with hlead | ⟨blank, hblank, hlead⟩
  · rw [hlead, List.nil_append, afterLead?, List.takeWhile_cons_of_neg hmark,
      List.dropWhile_cons_of_neg hmark]
    rfl
  · have hrun : ∀ c ∈ blank ++ ['\n'], Text.isBlank c = true :=
      List.forall_mem_append.mpr ⟨List.all_eq_true.mp hblank, by simp; rfl⟩
    rcases hlead with hlead | hlead
    · rw [hlead, afterLead?, List.takeWhile_append_of_pos hrun, List.dropWhile_append_of_pos hrun,
        List.takeWhile_cons_of_neg hmark, List.dropWhile_cons_of_neg hmark, List.append_nil,
        List.getLast?_concat]
      simp only [hslashes, Option.getD_none]
    · have hsplit : blank ++ ['\n', '/', '/'] ++ form.mark :: x
          = blank ++ ['\n'] ++ '/' :: '/' :: form.mark :: x := by simp
      have hslash : ¬ Text.isBlank '/' = true := by decide
      rw [hlead, hsplit, afterLead?, List.takeWhile_append_of_pos hrun,
        List.dropWhile_append_of_pos hrun, List.takeWhile_cons_of_neg hslash,
        List.dropWhile_cons_of_neg hslash, List.append_nil, List.getLast?_concat]
      rfl

theorem afterKeyword?_mark (x : List Char) :
    afterKeyword? (form.mark :: (keyword ++ x)) = some x := by
  rw [afterKeyword?, if_pos form.mark_eq, after?_append]

theorem not_isAddressChar_of_isBlank {c : Char} (h : Text.isBlank c = true) :
    ¬ isAddressChar c = true := by
  simp [isAddressChar, h]

theorem takeWhile_blank {cs : List Char} (h : isBlankTail cs = true) :
    cs.takeWhile isAddressChar = [] ∧ cs.dropWhile isAddressChar = cs := by
  cases cs with
  | nil => exact ⟨rfl, rfl⟩
  | cons c cs =>
      have hc := not_isAddressChar_of_isBlank (List.all_eq_true.mp h c List.mem_cons_self)
      exact ⟨List.takeWhile_cons_of_neg hc, List.dropWhile_cons_of_neg hc⟩

/-- The address ends at the gap, or where the closing mark follows it directly. -/
theorem blockAddress?_close {address : List Char} (h : ∀ c ∈ address, isAddressChar c = true) :
    blockAddress? (address ++ (form.gap ++ '*' :: '/' :: form.tail)) = some address := by
  cases hgap : form.gap with
  | nil =>
      have hclosed : ∀ c ∈ address ++ ['*', '/'], isAddressChar c = true :=
        List.forall_mem_append.mpr ⟨h, List.all_eq_true.mp (by decide)⟩
      obtain ⟨htake, hdrop⟩ := takeWhile_blank form.tail_blank
      have hnone : closesBlock form.tail = false := by
        rw [closesBlock, List.dropWhile_eq_nil_iff.mpr (List.all_eq_true.mp form.tail_blank)]
        rfl
      have hsplit : address ++ ([] ++ '*' :: '/' :: form.tail)
          = address ++ ['*', '/'] ++ form.tail := by simp
      rw [hsplit, blockAddress?, List.takeWhile_append_of_pos hclosed,
        List.dropWhile_append_of_pos hclosed, htake, hdrop, hnone, List.append_nil,
        if_neg Bool.false_ne_true, if_pos ⟨form.tail_blank, by simp⟩]
      simp
  | cons c gap =>
      have hblank : isBlankTail (c :: gap) = true := hgap ▸ form.gap_blank
      have hc := not_isAddressChar_of_isBlank (List.all_eq_true.mp hblank c List.mem_cons_self)
      have hcloses : closesBlock (c :: gap ++ '*' :: '/' :: form.tail) = true := by
        rw [closesBlock, List.dropWhile_append_of_pos (List.all_eq_true.mp hblank)]
        exact form.tail_blank
      rw [List.cons_append] at hcloses ⊢
      rw [blockAddress?, List.takeWhile_append_of_pos h, List.dropWhile_append_of_pos h,
        List.takeWhile_cons_of_neg hc, List.dropWhile_cons_of_neg hc, if_pos hcloses,
        List.append_nil]

/-- An annotation in any of its forms is read with its address. -/
theorem block?_wrap {address : List Char} (h : ∀ c ∈ address, isAddressChar c = true) :
    block? (form.wrap address) = some address := by
  have hmark := after?_append ['/', '*'] (form.lead ++ form.mark :: (keyword ++ (address ++
    (form.gap ++ '*' :: '/' :: form.tail))))
  simp only [List.cons_append, List.nil_append] at hmark
  simp only [wrap, block?, hmark, form.afterLead?_lead, form.afterKeyword?_mark,
    form.blockAddress?_close h, Option.bind_eq_bind, Option.bind_some]

/-- **The address of a block annotation at the end is found behind every text**, whatever comments
and annotations the text holds. -/
theorem find?_wrap (c : List Char) {address : List Char}
    (h : ∀ c ∈ address, isAddressChar c = true) :
    find? (c ++ form.wrap address) = some address := by
  have hbarred : Barred (form.lead ++ form.mark :: (keyword ++ (address ++
      (form.gap ++ '*' :: '/' :: form.tail)))) := by
    have hkeyword := barred_keyword (form.lead ++ [form.mark])
      (address ++ (form.gap ++ '*' :: '/' :: form.tail))
    rwa [List.append_assoc] at hkeyword
  have hblock := form.block?_wrap h
  rw [wrap] at hblock
  rw [wrap, find?_barred hbarred c, find?, whole?, hblock]
  rfl

theorem address?_wrap (text : String) {address : List Char}
    (h : ∀ c ∈ address, isAddressChar c = true) :
    address? (text ++ String.ofList (form.wrap address)) = some (String.ofList address) := by
  rw [address?, String.toList_append, String.toList_ofList, form.find?_wrap _ h, Option.map_some]

end BlockForm

section Annotation

variable {u w : List Char}

/-- The form with the mark at once and a blank before the closing mark. -/
def BlockForm.plain (hw : isBlankTail w = true) : BlockForm :=
  ⟨[], '#', [' '], w, .inl rfl, .inl rfl, rfl, hw⟩

theorem find?_block (c : List Char) (hu : ∀ c ∈ u, isAddressChar c = true)
    (hw : isBlankTail w = true) :
    find? (c ++ '/' :: (fence ++ (u ++ ' ' :: '*' :: '/' :: w))) = some u :=
  (BlockForm.plain hw).find?_wrap c hu

/-- A block annotation with its mark at once is read from the address on. -/
theorem block?_open (x : List Char) : block? ('/' :: (fence ++ x)) = blockAddress? x := by
  have hkeyword : afterKeyword? ('#' :: (keyword ++ x)) = some x := after?_append keyword x
  have hlead : afterLead? ('#' :: (keyword ++ x)) = some ('#' :: (keyword ++ x)) := rfl
  have hmark : after? ['/', '*'] ('/' :: (fence ++ x)) = some ('#' :: (keyword ++ x)) :=
    after?_append ['/', '*'] ('#' :: (keyword ++ x))
  simp only [block?, hmark, hlead, hkeyword, Option.bind_eq_bind, Option.bind_some]

/-- An annotation begins with a slash. -/
theorem find?_skip {s : List Char} (hs : '/' ∉ s) (t : List Char) : find? (s ++ t) = find? t := by
  induction s with
  | nil => rfl
  | cons c s ih =>
      obtain ⟨hc, hs⟩ := not_or.mp (List.mem_cons.not.mp hs)
      have hwhole : whole? (c :: (s ++ t)) = none := by
        simp [whole?, block?, line?, after?, hc]
      rw [List.cons_append, find?, hwhole, Option.none_or, ih hs]

/-- No annotation begins with the closing mark of a comment. -/
theorem find?_closing (hw : isBlankTail w = true) : find? ('/' :: w) = none := by
  have hslash : '/' ∉ w := fun h => absurd (List.all_eq_true.mp hw _ h) (by decide)
  have hwhole : whole? ('/' :: w) = none := by
    cases w with
    | nil => rfl
    | cons c w =>
        have hstar : '*' ≠ c := by
          rintro rfl
          exact absurd (List.all_eq_true.mp hw '*' List.mem_cons_self) (by decide)
        have hc : '/' ≠ c := (not_or.mp (List.mem_cons.not.mp hslash)).1
        simp [whole?, block?, line?, after?, hstar, hc]
  have hrest := find?_skip hslash []
  rw [List.append_nil] at hrest
  rw [find?, hwhole, Option.none_or, hrest]
  rfl

/-- **A block annotation that breaks off is found behind no text**: what stands in place of its
address goes on behind a character that ends an address. -/
theorem find?_broken (b : List Char) {v : List Char} {c : Char} (hv : '/' ∉ v)
    (hc : c ∈ v.dropWhile isAddressChar) (hblank : Text.isBlank c = false) (hstar : c ≠ '*')
    (hw : isBlankTail w = true) :
    find? (b ++ '/' :: (fence ++ (v ++ ' ' :: '*' :: '/' :: w))) = none := by
  have hmem : c ∈ (v ++ ' ' :: '*' :: '/' :: w).dropWhile isAddressChar := by
    rw [List.dropWhile_append, if_neg (by simp [List.ne_nil_of_mem hc])]
    exact List.mem_append_left _ hc
  have hslash : c ≠ '/' := by
    rintro rfl
    exact hv ((List.dropWhile_suffix _).subset hc)
  have hblock : block? ('/' :: (fence ++ (v ++ ' ' :: '*' :: '/' :: w))) = none := by
    rw [block?_open, blockAddress?_eq_none hmem hblank hstar hslash]
  have hline : line? ('/' :: (fence ++ (v ++ ' ' :: '*' :: '/' :: w))) = none := rfl
  have hbody : '/' ∉ fence ++ (v ++ [' ', '*']) := by
    have hfence : '/' ∉ fence := by decide
    simp [hfence, hv]
  have hrest := find?_skip hbody ('/' :: w)
  rw [List.append_assoc, List.append_assoc] at hrest
  rw [find?_fence, find?, whole?, hblock, hline, Option.none_or, Option.none_or]
  exact hrest.trans (find?_closing hw)

end Annotation

end StylePrint.SourceMap.LinkComment
