import Mathlib.Data.List.Infix
import StylePrint.Proofs.SourceMap.LinkComment
/-!
What annotations are, and which of them is found. An annotation is a block comment in one of its
forms or a line comment, with an address that ends before white space and quotes (`Annotation`).
The scan of one suffix reads exactly these (`whole?_eq_some_iff`), so a suffix has one address, and
the search through the suffixes of a text stops at the longest of them
(`annotations_are_found_exactly`).
-/

namespace StylePrint.SourceMap.LinkComment

/-! ### Annotations -/

/-- Whether characters are an annotation with an address. -/
inductive Annotation : List Char → List Char → Prop where
  | block (form : BlockForm) {address : List Char}
      (haddress : ∀ c ∈ address, isAddressChar c = true) : Annotation (form.wrap address) address
  | line {mark : Char} {address tail : List Char} (hmark : mark = '#' ∨ mark = '@')
      (haddress : ∀ c ∈ address, isAddressChar c = true) (htail : isBlankTail tail = true) :
      Annotation ('/' :: '/' :: mark :: (keyword ++ (address ++ tail))) address

/-- Whether an annotation is the longest one at the end of a text, and its address the longest one
that the annotation can be read with. -/
structure LongestAt (code suffix address : List Char) : Prop where
  isSuffix : suffix <:+ code
  annotation : Annotation suffix address
  longest : ∀ {other found}, other <:+ code → Annotation other found →
    other.length ≤ suffix.length
  greedy : ∀ {found}, Annotation suffix found → found.length ≤ address.length

/-! ### Parts of an annotation -/

theorem isBlankTail_takeWhile (cs : List Char) : isBlankTail (cs.takeWhile Text.isBlank) = true :=
  List.all_eq_true.mpr fun _ => List.mem_takeWhile_imp

theorem afterKeyword?_eq_some {cs rest : List Char} :
    afterKeyword? cs = some rest ↔
      ∃ mark, (mark = '#' ∨ mark = '@') ∧ cs = mark :: (keyword ++ rest) := by
  constructor
  · intro h
    cases cs with
    | nil => cases h
    | cons mark cs =>
        rw [afterKeyword?] at h
        split at h
        · rename_i hmark
          exact ⟨mark, hmark, congrArg (mark :: ·) (after?_eq_some.mp h)⟩
        · cases h
  · rintro ⟨mark, hmark, rfl⟩
    rw [afterKeyword?, if_pos hmark, after?_append]

/-- What is taken off as a lead is one. -/
theorem eq_of_afterLead? {cs rest : List Char} (h : afterLead? cs = some rest) :
    ∃ lead, cs = lead ++ rest ∧ (lead = [] ∨ ∃ blank, isBlankTail blank = true ∧
      (lead = blank ++ ['\n'] ∨ lead = blank ++ ['\n', '/', '/'])) := by
  have hsplit : cs.takeWhile Text.isBlank ++ cs.dropWhile Text.isBlank = cs :=
    List.takeWhile_append_dropWhile
  rw [afterLead?] at h
  split at h
  · rename_i hnone
    rw [List.getLast?_eq_none_iff.mp hnone, Option.some.inj h] at hsplit
    exact ⟨[], hsplit.symm, .inl rfl⟩
  · rename_i hlast
    obtain ⟨blank, hrun⟩ := List.getLast?_eq_some_iff.mp hlast
    have hblank : isBlankTail blank = true := by
      have hall := isBlankTail_takeWhile cs
      rw [hrun, isBlankTail, List.all_append, Bool.and_eq_true] at hall
      exact hall.1
    rw [hrun] at hsplit
    cases hslashes : after? ['/', '/'] (cs.dropWhile Text.isBlank) with
    | none =>
        rw [hslashes] at h
        rw [← Option.some.inj h]
        exact ⟨blank ++ ['\n'], hsplit.symm, .inr ⟨blank, hblank, .inl rfl⟩⟩
    | some behind =>
        rw [hslashes] at h
        obtain rfl : behind = rest := Option.some.inj h
        rw [after?_eq_some.mp hslashes, ← List.append_assoc] at hsplit
        refine ⟨blank ++ ['\n', '/', '/'], ?_, .inr ⟨blank, hblank, .inr rfl⟩⟩
        rw [← hsplit, List.append_assoc blank]
        rfl
  · cases h

theorem eq_of_closesBlock {cs : List Char} (h : closesBlock cs = true) :
    ∃ gap tail, isBlankTail gap = true ∧ isBlankTail tail = true ∧
      cs = gap ++ '*' :: '/' :: tail := by
  unfold closesBlock at h
  split at h
  · rename_i tail htail
    refine ⟨cs.takeWhile Text.isBlank, tail, isBlankTail_takeWhile cs, h, ?_⟩
    have hrest : cs.dropWhile Text.isBlank = '*' :: '/' :: tail := after?_eq_some.mp htail
    rw [← hrest, List.takeWhile_append_dropWhile]
  · cases h

/-- What is read as the address of a block comment stands before its closing mark. -/
theorem eq_of_blockAddress? {cs address : List Char} (h : blockAddress? cs = some address) :
    (∀ c ∈ address, isAddressChar c = true) ∧ ∃ gap tail, isBlankTail gap = true ∧
      isBlankTail tail = true ∧ cs = address ++ (gap ++ '*' :: '/' :: tail) := by
  have hsplit : cs.takeWhile isAddressChar ++ cs.dropWhile isAddressChar = cs :=
    List.takeWhile_append_dropWhile
  have hrun : ∀ c ∈ cs.takeWhile isAddressChar, isAddressChar c = true :=
    fun _ => List.mem_takeWhile_imp
  simp only [blockAddress?] at h
  split at h
  · rename_i hcloses
    obtain rfl := Option.some.inj h
    obtain ⟨gap, tail, hgap, htail, hrest⟩ := eq_of_closesBlock hcloses
    rw [hrest] at hsplit
    exact ⟨hrun, gap, tail, hgap, htail, hsplit.symm⟩
  · split at h
    · -- the closing mark was taken for the end of the address
      rename_i hclosed
      obtain ⟨htail, hmark⟩ := hclosed
      obtain ⟨before, hbefore⟩ := List.isSuffixOf_iff_suffix.mp hmark
      obtain rfl : before = address := by
        have hlength : (before ++ ['*', '/']).length - 2 = before.length := by simp
        rwa [← hbefore, hlength, List.take_left, Option.some.injEq] at h
      rw [← hbefore] at hsplit hrun
      exact ⟨(List.forall_mem_append.mp hrun).1, [], cs.dropWhile isAddressChar, rfl, htail,
        hsplit.symm.trans (List.append_assoc before _ _)⟩
    · cases h

/-! ### Whole annotations -/

theorem block?_eq_some_iff {cs address : List Char} :
    block? cs = some address ↔
      ∃ form : BlockForm, (∀ c ∈ address, isAddressChar c = true) ∧ cs = form.wrap address := by
  constructor
  · intro h
    simp only [block?, Option.bind_eq_bind, Option.bind_eq_some_iff] at h
    obtain ⟨inside, hopening, behind, hlead, rest, hkeyword, haddress⟩ := h
    obtain ⟨lead, rfl, hform⟩ := eq_of_afterLead? hlead
    obtain ⟨mark, hmark, rfl⟩ := afterKeyword?_eq_some.mp hkeyword
    obtain ⟨hchars, gap, tail, hgap, htail, rfl⟩ := eq_of_blockAddress? haddress
    exact ⟨⟨lead, mark, gap, tail, hform, hmark, hgap, htail⟩, hchars, after?_eq_some.mp hopening⟩
  · rintro ⟨form, hchars, rfl⟩
    exact form.block?_wrap hchars

theorem line?_eq_some_iff {cs address : List Char} :
    line? cs = some address ↔
      ∃ mark tail, (mark = '#' ∨ mark = '@') ∧ (∀ c ∈ address, isAddressChar c = true) ∧
        isBlankTail tail = true ∧ cs = '/' :: '/' :: mark :: (keyword ++ (address ++ tail)) := by
  constructor
  · intro h
    simp only [line?, Option.bind_eq_bind, Option.bind_eq_some_iff] at h
    obtain ⟨inside, hopening, rest, hkeyword, h⟩ := h
    obtain ⟨mark, hmark, rfl⟩ := afterKeyword?_eq_some.mp hkeyword
    split at h
    · rename_i htail
      obtain rfl := Option.some.inj h
      refine ⟨mark, _, hmark, fun _ => List.mem_takeWhile_imp, htail, ?_⟩
      rw [List.takeWhile_append_dropWhile]
      exact after?_eq_some.mp hopening
    · cases h
  · rintro ⟨mark, tail, hmark, hchars, htail, rfl⟩
    obtain ⟨htake, hdrop⟩ := BlockForm.takeWhile_blank htail
    have hopening : after? ['/', '/'] ('/' :: '/' :: mark :: (keyword ++ (address ++ tail)))
        = some (mark :: (keyword ++ (address ++ tail))) := after?_append ['/', '/'] _
    have hkeyword : afterKeyword? (mark :: (keyword ++ (address ++ tail)))
        = some (address ++ tail) := afterKeyword?_eq_some.mpr ⟨mark, hmark, rfl⟩
    simp only [line?, hopening, hkeyword, Option.bind_eq_bind, Option.bind_some,
      List.takeWhile_append_of_pos hchars, List.dropWhile_append_of_pos hchars, htake, hdrop,
      htail, List.append_nil]
    rfl

/-- **The scan of a suffix reads exactly the annotations.** -/
theorem whole?_eq_some_iff {cs address : List Char} :
    whole? cs = some address ↔ Annotation cs address := by
  rw [whole?, Option.or_eq_some_iff]
  constructor
  · rintro (hblock | ⟨-, hline⟩)
    · obtain ⟨form, hchars, rfl⟩ := block?_eq_some_iff.mp hblock
      exact .block form hchars
    · obtain ⟨mark, tail, hmark, hchars, htail, rfl⟩ := line?_eq_some_iff.mp hline
      exact .line hmark hchars htail
  · rintro (⟨form, hchars⟩ | ⟨hmark, hchars, htail⟩)
    · exact .inl (form.block?_wrap hchars)
    · exact .inr ⟨rfl, line?_eq_some_iff.mpr ⟨_, _, hmark, hchars, htail, rfl⟩⟩

/-- An annotation can be read with one address only. -/
theorem Annotation.unique {cs u v : List Char} (hu : Annotation cs u) (hv : Annotation cs v) :
    u = v :=
  Option.some.inj ((whole?_eq_some_iff.mpr hu).symm.trans (whole?_eq_some_iff.mpr hv))

/-! ### The longest annotation -/

/-- No annotation begins in the first character when none does: the longest one at the end of a
text is the longest one at the end of the rest. -/
theorem longestAt_cons {c : Char} {cs suffix address : List Char} (h : whole? (c :: cs) = none) :
    LongestAt (c :: cs) suffix address ↔ LongestAt cs suffix address := by
  have hshorter : ∀ {other found}, other <:+ c :: cs → Annotation other found → other <:+ cs := by
    intro other found hsuffix hother
    rcases List.suffix_cons_iff.mp hsuffix with rfl | hsuffix
    · rw [whole?_eq_some_iff.mpr hother] at h
      cases h
    · exact hsuffix
  constructor
  · intro hlongest
    exact ⟨hshorter hlongest.isSuffix hlongest.annotation, hlongest.annotation,
      fun hsuffix => hlongest.longest (hsuffix.trans (List.suffix_cons c cs)), hlongest.greedy⟩
  · intro hlongest
    exact ⟨hlongest.isSuffix.trans (List.suffix_cons c cs), hlongest.annotation,
      fun hsuffix hother => hlongest.longest (hshorter hsuffix hother) hother, hlongest.greedy⟩

/-- **The search stops at the longest annotation.** -/
theorem find?_eq_some_iff {cs address : List Char} :
    find? cs = some address ↔ ∃ suffix, LongestAt cs suffix address := by
  induction cs with
  | nil =>
      constructor
      · intro h
        cases h
      · rintro ⟨suffix, hlongest⟩
        have hsuffix := List.suffix_nil.mp hlongest.isSuffix
        have hwhole := whole?_eq_some_iff.mpr hlongest.annotation
        rw [hsuffix] at hwhole
        cases hwhole
  | cons c cs ih =>
      rw [find?]
      cases hwhole : whole? (c :: cs) with
      | none => simp only [Option.none_or, ih, longestAt_cons hwhole]
      | some found =>
          have hfound := whole?_eq_some_iff.mp hwhole
          rw [Option.some_or, Option.some.injEq]
          constructor
          · rintro rfl
            exact ⟨c :: cs, List.suffix_rfl, hfound, fun hsuffix _ => hsuffix.length_le,
              fun hother => Nat.le_of_eq (congrArg List.length (hother.unique hfound))⟩
          · rintro ⟨suffix, hlongest⟩
            have hlength := hlongest.longest List.suffix_rfl hfound
            obtain rfl := hlongest.isSuffix.eq_of_length_le hlength
            exact hfound.unique hlongest.annotation

/-- An address is found where some annotation ends the text. -/
theorem exists_find?_iff {cs : List Char} :
    (∃ address, find? cs = some address) ↔
      ∃ suffix address, suffix <:+ cs ∧ Annotation suffix address := by
  constructor
  · rintro ⟨address, h⟩
    obtain ⟨suffix, hlongest⟩ := find?_eq_some_iff.mp h
    exact ⟨suffix, address, hlongest.isSuffix, hlongest.annotation⟩
  · rintro ⟨suffix, address, ⟨before, rfl⟩, hannotation⟩
    induction before with
    | nil =>
        rw [List.nil_append]
        cases suffix with
        | nil => cases whole?_eq_some_iff.mpr hannotation
        | cons c cs =>
            exact ⟨address, by rw [find?, whole?_eq_some_iff.mpr hannotation, Option.some_or]⟩
    | cons c before ih =>
        rw [List.cons_append, find?]
        cases whole? (c :: (before ++ suffix)) with
        | none => exact ih
        | some found => exact ⟨found, rfl⟩

/-- **The annotations that are found are exactly those of the grammar.** A text names an address
when some annotation ends it, and it is the address of the longest one, which has no longer
address. So a block annotation put behind any text is found there, in each of its forms and with
each address, whatever annotations or unclosed comments the text holds. -/
theorem annotations_are_found_exactly (code : String) :
    ((∃ address, address? code = some address) ↔
        ∃ suffix address, suffix <:+ code.toList ∧ Annotation suffix address) ∧
      (∀ address, address? code = some address ↔
        ∃ suffix, LongestAt code.toList suffix address.toList) ∧
      ∀ (form : BlockForm) {address : List Char}, (∀ c ∈ address, isAddressChar c = true) →
        address? (code ++ String.ofList (form.wrap address)) = some (String.ofList address) := by
  have hiff : ∀ address, address? code = some address ↔ find? code.toList = some address.toList := by
    intro address
    rw [address?, Option.map_eq_some_iff]
    constructor
    · rintro ⟨cs, hfind, rfl⟩
      rw [hfind, String.toList_ofList]
    · intro hfind
      exact ⟨address.toList, hfind, String.ofList_toList⟩
  refine ⟨?_, ?_, ?_⟩
  · rw [← exists_find?_iff]
    constructor
    · rintro ⟨address, haddress⟩
      exact ⟨address.toList, (hiff address).mp haddress⟩
    · rintro ⟨address, hfind⟩
      exact ⟨String.ofList address, (hiff _).mpr (by rw [hfind, String.toList_ofList])⟩
  · intro address
    rw [hiff, find?_eq_some_iff]
  · intro form address hchars
    exact form.address?_wrap code hchars

/-- An annotation of the other mark behind its lead, whose address holds the closing mark, behind
an annotation that breaks off and the beginning of one that goes on into it. -/
theorem annotations_are_found_exactly_of_open :
    let code := "a\x7b\x7d/*# sourceMappingURL=a.map b /*\n//# sourceMappingURL="
    let form : BlockForm := ⟨['\n', '/', '/'], '@', [' '], ['\n'], .inr ⟨[], rfl, .inr rfl⟩,
      .inr rfl, rfl, rfl⟩
    let address := "c*/d.map".toList
    (∀ c ∈ address, isAddressChar c = true) ∧
      address? (code ++ String.ofList (form.wrap address)) = some (String.ofList address) := by
  intro code form address
  have hchars : ∀ c ∈ address, isAddressChar c = true := List.all_eq_true.mp (by decide)
  exact ⟨hchars, (annotations_are_found_exactly code).2.2 form hchars⟩

example : address? "/*\n//# sourceMappingURL=a*/" = some "a" := by decide +kernel

end StylePrint.SourceMap.LinkComment
