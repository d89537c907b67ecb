import StylePrint.Proofs.UrlPath.Join
/-!
Paths that are read from an absolute address. Only the slashes at its end are taken off the address,
so what is left is an absolute address again, unless those slashes belong to the mark behind its
scheme (`isAbsoluteChars_trimSlashes_iff`). A path read from the address then stands under it; read
from a bare scheme it is normalized like a relative path, and the mark is lost
(`join_stays_under_address`, `bare_scheme_is_lost`). What is read from a directory is an absolute
address where the directory is one, and where normal form uncovers a name that begins like a data
address (`isAbsoluteChars_joinChars_iff`).
-/

namespace StylePrint.UrlPath

/-! ### The mark of a scheme -/

/-- A path that is spelled from segments has no mark of a scheme: none of its segments is empty. -/
theorem hasSchemeMark_spell {segments : List Segment}
    (hsegments : ∀ segment ∈ segments, segment ≠ [] ∧ '/' ∉ segment) (rooted : Bool) :
    hasSchemeMark (spell rooted segments) = false := by
  cases segments with
  | nil => cases rooted <;> rfl
  | cons first rest =>
      rw [Bool.eq_false_iff, Ne, hasSchemeMark_iff]
      rintro ⟨before, after, hmark⟩
      have hsplit := splitOn_spell hsegments (List.cons_ne_nil first rest) rooted
      -- between the slashes of a mark stands an empty segment, and not as the first one
      have hempty : (spell rooted (first :: rest)).splitOn '/'
          = (before ++ [':']).splitOn '/' ++ [] :: after.splitOn '/' := by
        have happend := List.splitOn_append_cons_self (a := '/') (before ++ [':']) ('/' :: after)
        rw [List.splitOn_cons_self] at happend
        rw [← hmark]
        simpa using happend
      obtain ⟨lead, others, hlead⟩ :=
        List.exists_cons_of_ne_nil (List.splitOn_ne_nil '/' (before ++ [':']))
      rw [hempty, hlead, List.cons_append] at hsplit
      have hmem : [] ∈ others ++ [] :: after.splitOn '/' :=
        List.mem_append_right others List.mem_cons_self
      cases rooted with
      | true =>
          rw [if_pos rfl] at hsplit
          rw [(List.cons.inj hsplit).2] at hmem
          exact (hsegments [] hmem).1 rfl
      | false =>
          rw [if_neg Bool.false_ne_true] at hsplit
          rw [(List.cons.inj hsplit).2] at hmem
          exact (hsegments [] (List.mem_cons_of_mem first hmem)).1 rfl

/-- Normal form brings no mark of a scheme into a path. -/
theorem hasSchemeMark_normalizeChars {cs : List Char} (h : isAbsoluteChars cs = false) :
    hasSchemeMark (normalizeChars cs) = false := by
  rw [normalizeChars_of_path h]
  exact hasSchemeMark_spell (mem_settle _ cs) _

/-! ### Slashes at the end -/

theorem exists_slashes (cs : List Char) : ∃ n, cs = trimSlashes cs ++ List.replicate n '/' := by
  induction cs using List.reverseRecOn with
  | nil => exact ⟨0, rfl⟩
  | append_singleton cs c ih =>
      by_cases hc : c = '/'
      · obtain ⟨n, hcs⟩ := ih
        refine ⟨n + 1, ?_⟩
        rw [hc, trimSlashes_concat_slash, List.replicate_succ', ← List.append_assoc, ← hcs]
      · exact ⟨0, by rw [trimSlashes_concat hc, List.replicate_zero, List.append_nil]⟩

theorem trimSlashes_append_slashes (cs : List Char) (n : Nat) :
    trimSlashes (cs ++ List.replicate n '/') = trimSlashes cs := by
  induction n with
  | zero => rw [List.replicate_zero, List.append_nil]
  | succ n ih =>
      rw [List.replicate_succ', ← List.append_assoc, trimSlashes_concat_slash, ih]

/-! ### Bare schemes -/

/-- Whether characters are a scheme with its mark and nothing behind it but slashes, so that without
those slashes no absolute address is left. -/
def IsBareScheme (cs : List Char) : Prop :=
  ∃ scheme n, cs = scheme ++ ':' :: List.replicate (n + 2) '/' ∧
    isAbsoluteChars (scheme ++ [':']) = false

/-- Slashes behind a path make a mark only of a colon that the path ends in. -/
theorem mark_cases {xs : List Char} {n : Nat} (hxs : xs.getLast? ≠ some '/')
    (hmark : [':', '/', '/'] <:+: xs ++ List.replicate n '/') :
    [':', '/', '/'] <:+: xs ∨ ∃ scheme k, xs = scheme ++ [':'] ∧ n = k + 2 := by
  obtain ⟨before, after, hsplit⟩ := hmark
  have hsplit : (before ++ [':']) ++ '/' :: '/' :: after = xs ++ List.replicate n '/' := by
    simpa using hsplit
  rcases List.append_eq_append_iff.mp hsplit with ⟨rest, hpath, hrest⟩ | ⟨rest, hcolon, hrest⟩
  · match rest with
    | [] =>
        have hlength := congrArg List.length hrest
        simp only [List.length_cons, List.nil_append, List.length_replicate] at hlength
        exact .inr ⟨before, after.length, hpath.trans (List.append_nil _), hlength.symm⟩
    | [c] =>
        obtain rfl : '/' = c := (List.cons.inj hrest).1
        exact absurd (by rw [hpath, List.getLast?_concat]) hxs
    | c :: d :: rest =>
        obtain ⟨hc, hrest⟩ := List.cons.inj hrest
        obtain ⟨hd, -⟩ := List.cons.inj hrest
        exact .inl ⟨before, rest, by simp [hpath, ← hc, ← hd]⟩
  · rcases List.eq_nil_or_concat rest with rfl | ⟨front, c, rfl⟩
    · have hlength := congrArg List.length hrest
      simp only [List.length_cons, List.nil_append, List.length_replicate] at hlength
      exact .inr ⟨before, after.length, (hcolon.trans (List.append_nil xs)).symm, hlength⟩
    · -- no colon is among the slashes
      rw [List.concat_eq_append, ← List.append_assoc] at hcolon
      obtain rfl : ':' = c := (List.append_singleton_inj.mp hcolon).2
      have hmem : ':' ∈ List.replicate n '/' := by
        rw [hrest]
        simp
      exact absurd (List.eq_of_mem_replicate hmem) (by decide)

/-- Without the slashes at its end an absolute address is one, unless it is a bare scheme. -/
theorem isAbsoluteChars_trimSlashes_iff {cs : List Char} (h : isAbsoluteChars cs = true) :
    isAbsoluteChars (trimSlashes cs) = true ↔ ¬IsBareScheme cs := by
  constructor
  · rintro habsolute ⟨scheme, n, rfl, hscheme⟩
    have htrim : trimSlashes (scheme ++ ':' :: List.replicate (n + 2) '/') = scheme ++ [':'] := by
      have hslashes := trimSlashes_append_slashes (scheme ++ [':']) (n + 2)
      rw [trimSlashes_concat (by decide), List.append_assoc] at hslashes
      exact hslashes
    rw [htrim, hscheme] at habsolute
    cases habsolute
  · intro hbare
    by_contra htrim
    rw [Bool.not_eq_true] at htrim
    obtain ⟨hdata, hmark⟩ := Bool.or_eq_false_iff.mp htrim
    obtain ⟨n, hcs⟩ := exists_slashes cs
    have hdata' : isData cs = false := by
      cases n with
      | zero => rw [hcs, List.replicate_zero, List.append_nil, hdata]
      | succ n => rw [hcs, List.replicate_succ, isData_append_slash, hdata]
    have hmark' : hasSchemeMark cs = true := by
      rwa [isAbsoluteChars, hdata', Bool.false_or] at h
    rw [hcs, hasSchemeMark_iff] at hmark'
    rcases mark_cases (getLast?_trimSlashes cs) hmark' with hinner | ⟨scheme, k, hscheme, rfl⟩
    · exact Bool.noConfusion (hmark.symm.trans (hasSchemeMark_iff.mpr hinner))
    · refine hbare ⟨scheme, k, ?_, ?_⟩
      · rw [hscheme, List.append_assoc] at hcs
        exact hcs
      · rwa [← hscheme]

/-! ### Reading from an absolute address -/

section Under

variable {root cs : List Char} (hroot : isAbsoluteChars root = true)
  (hcs : isAbsoluteChars cs = false) (hrelative : isRooted cs = false)

include hroot hcs hrelative

theorem joinChars_of_absolute :
    joinChars root cs = normalizeChars (trimSlashes root ++ '/' :: cs) := by
  have hne : root ≠ [] := by
    rintro rfl
    cases hroot
  rw [joinChars_of_relative hcs hrelative, opening, if_neg hne]

theorem isAbsoluteChars_under_iff :
    isAbsoluteChars (trimSlashes root ++ '/' :: cs) = true ↔ ¬IsBareScheme root := by
  rw [isAbsoluteChars_append_slash (getLast?_trimSlashes root) hcs hrelative,
    isAbsoluteChars_trimSlashes_iff hroot]

theorem isAbsoluteChars_under_of_bare (hbare : IsBareScheme root) :
    isAbsoluteChars (trimSlashes root ++ '/' :: cs) = false := by
  rw [Bool.eq_false_iff]
  exact fun h => (isAbsoluteChars_under_iff hroot hcs hrelative).mp h hbare

/-- Behind an absolute address a path is left as it is. -/
theorem joinChars_under (hbare : ¬IsBareScheme root) :
    joinChars root cs = trimSlashes root ++ '/' :: cs := by
  rw [joinChars_of_absolute hroot hcs hrelative, normalizeChars,
    if_pos ((isAbsoluteChars_under_iff hroot hcs hrelative).mpr hbare)]

/-- Behind a bare scheme a path does not even begin an absolute address. -/
theorem not_under_of_bare (hbare : IsBareScheme root) :
    ¬(isAbsoluteChars (joinChars root cs) = true ∧
      trimSlashes root ++ '/' :: cs <+: joinChars root cs) := by
  rintro ⟨habsolute, hbegins⟩
  have hpath := isAbsoluteChars_under_of_bare hroot hcs hrelative hbare
  rw [joinChars_of_absolute hroot hcs hrelative] at habsolute hbegins
  have hdata : isData (normalizeChars (trimSlashes root ++ '/' :: cs)) = true := by
    rwa [isAbsoluteChars, hasSchemeMark_normalizeChars hpath, Bool.or_false] at habsolute
  rcases List.prefix_or_prefix_of_prefix hbegins (List.isPrefixOf_iff_prefix.mp hdata)
    with hshort | hlong
  · have hslash : '/' ∈ ['d', 'a', 't', 'a', ':'] :=
      hshort.subset (List.mem_append_right _ List.mem_cons_self)
    exact absurd hslash (by decide)
  · have hdata' := List.isPrefixOf_iff_prefix.mpr hlong
    exact Bool.noConfusion ((Bool.or_eq_false_iff.mp hpath).1.symm.trans hdata')

end Under

/-- A path without the slashes at its end. -/
def stem (path : String) : String :=
  String.ofList (trimSlashes path.toList)

/-- **A path that is read from an absolute address stands under it.** Take an absolute address and a
path that is neither one nor rooted. What the path is read as is an absolute address that begins
with the first one less the slashes at its end, a slash and the path, exactly when the first one is
no bare scheme. Then it is nothing but these three, and it stays what it is whatever directory it is
read from. Read from a bare scheme, the path is put behind what is left of the scheme and
normalized, and no mark of a scheme stands in the result. -/
theorem join_stays_under_address {root path : String} (hroot : isAbsolute root = true)
    (hpath : isAbsolute path = false) (hrelative : isRooted path.toList = false) :
    ((isAbsolute (join root path) = true ∧
        (stem root ++ "/" ++ path).toList <+: (join root path).toList) ↔
      ¬IsBareScheme root.toList) ∧
    (¬IsBareScheme root.toList → join root path = stem root ++ "/" ++ path ∧
      ∀ directory, join directory (join root path) = join root path) ∧
    (IsBareScheme root.toList → join root path = normalize (stem root ++ "/" ++ path) ∧
      hasSchemeMark (join root path).toList = false) := by
  have hjoin : (join root path).toList = joinChars root.toList path.toList := String.toList_ofList
  have hstem : (stem root ++ "/" ++ path).toList
      = trimSlashes root.toList ++ '/' :: path.toList := by
    simp [stem]
  have hunder := isAbsoluteChars_under_iff hroot hpath hrelative
  refine ⟨⟨?_, ?_⟩, ?_, ?_⟩
  · rw [isAbsolute, hjoin, hstem]
    exact fun hholds hbare => not_under_of_bare hroot hpath hrelative hbare hholds
  · intro hbare
    rw [isAbsolute, hjoin, hstem, joinChars_under hroot hpath hrelative hbare]
    exact ⟨hunder.mpr hbare, List.prefix_rfl⟩
  · intro hbare
    have heq : (join root path).toList = (stem root ++ "/" ++ path).toList := by
      rw [hjoin, hstem, joinChars_under hroot hpath hrelative hbare]
    refine ⟨String.toList_inj.mp heq, ?_⟩
    intro directory
    have habsolute : isAbsoluteChars (join root path).toList = true := by
      rw [heq, hstem]
      exact hunder.mpr hbare
    rw [join, joinChars, habsolute, Bool.true_or, if_pos rfl, String.ofList_toList]
  · intro hbare
    have hpath' := isAbsoluteChars_under_of_bare hroot hpath hrelative hbare
    have heq : joinChars root.toList path.toList
        = normalizeChars (trimSlashes root.toList ++ '/' :: path.toList) :=
      joinChars_of_absolute hroot hpath hrelative
    refine ⟨?_, ?_⟩
    · rw [join, heq, normalize, hstem]
    · rw [hjoin, heq, hasSchemeMark_normalizeChars hpath']

/-- An address with a host, and slashes behind it; the ways up in the path stay. -/
theorem join_stays_under_address_of_host :
    let root := "http://x.test/css//"
    let path := "../scss/./a.scss"
    (isAbsolute root = true ∧ isAbsolute path = false ∧ isRooted path.toList = false ∧
        ¬IsBareScheme root.toList) ∧
      isAbsolute (join root path) = true ∧
      (stem root ++ "/" ++ path).toList <+: (join root path).toList ∧
      join root path = "http://x.test/css/../scss/./a.scss" ∧
      join "css" (join root path) = join root path := by
  intro root path
  have hroot : isAbsolute root = true := by decide
  have hpath : isAbsolute path = false := by decide
  have hrelative : isRooted path.toList = false := by decide
  have hbare : ¬IsBareScheme root.toList :=
    (isAbsoluteChars_trimSlashes_iff hroot).mp (by decide)
  obtain ⟨hunder, hbehind, -⟩ := join_stays_under_address hroot hpath hrelative
  obtain ⟨hjoin, hdirectory⟩ := hbehind hbare
  obtain ⟨habsolute, hbegins⟩ := hunder.mpr hbare
  exact ⟨⟨hroot, hpath, hrelative, hbare⟩, habsolute, hbegins, hjoin.trans (by decide),
    hdirectory "css"⟩

/-- Of the mark of a bare scheme one slash is left, so that the result is a relative path. -/
theorem bare_scheme_is_lost :
    isAbsolute "file:///" = true ∧ isAbsolute "a.css" = false ∧
      isRooted "a.css".toList = false ∧ join "file:///" "a.css" = "file:/a.css" ∧
      isAbsolute (join "file:///" "a.css") = false ∧
      join "css" (join "file:///" "a.css") = "css/file:/a.css" := by
  decide

/-! ### Absolute results -/

/-- Whether a relative path leads down from its start by a name that begins like a data address. -/
def LeadsIntoData (cs : List Char) : Prop :=
  isRooted cs = false ∧ ∃ name ∈ (Location.ofPath cs).segments.head?, isData name = true

instance (cs : List Char) : Decidable (LeadsIntoData cs) :=
  inferInstanceAs (Decidable (_ ∧ ∃ name ∈ (Location.ofPath cs).segments.head?, _))

/-- A path that is spelled from segments begins like its first segment. -/
theorem isData_spell {segments : List Segment}
    (hsegments : ∀ segment ∈ segments, segment ≠ [] ∧ '/' ∉ segment) (rooted : Bool) :
    isData (spell rooted segments) = true ↔
      rooted = false ∧ ∃ first ∈ segments.head?, isData first = true := by
  cases rooted with
  | true => exact ⟨nofun, nofun⟩
  | false =>
      cases segments with
      | nil => exact ⟨nofun, nofun⟩
      | cons first rest =>
          have hfirst : isData (['/'].intercalate (first :: rest)) = isData first := by
            cases rest with
            | nil => rw [List.intercalate_singleton]
            | cons next rest => rw [intercalate_cons (List.cons_ne_nil next rest),
                isData_append_slash]
          rw [spell_relative hsegments (List.cons_ne_nil first rest), hfirst]
          simp

/-- Normal form makes an absolute address of a path only where it uncovers a name that begins like
a data address. -/
theorem isAbsoluteChars_normalizeChars_iff {cs : List Char} (h : isAbsoluteChars cs = false) :
    isAbsoluteChars (normalizeChars cs) = true ↔ LeadsIntoData cs := by
  rw [isAbsoluteChars, hasSchemeMark_normalizeChars h, Bool.or_false, normalizeChars_eq_spell h]
  exact isData_spell (mem_segments_ofPath cs) (isRooted cs)

/-- **Where a relative path becomes an absolute address**: behind a directory that is one without
the slashes at its end, or where the way from the directory leads down by a name that begins like a
data address. -/
theorem isAbsoluteChars_joinChars_iff {root cs : List Char} (hcs : isAbsoluteChars cs = false)
    (hrelative : isRooted cs = false) :
    isAbsoluteChars (joinChars root cs) = true ↔
      isAbsoluteChars (opening root) = true ∨ LeadsIntoData (opening root ++ '/' :: cs) := by
  have hwhole : isAbsoluteChars (opening root ++ '/' :: cs) = isAbsoluteChars (opening root) :=
    isAbsoluteChars_append_slash (getLast?_trimSlashes _) hcs hrelative
  rw [joinChars_of_relative hcs hrelative]
  cases hopening : isAbsoluteChars (opening root) with
  | true =>
      rw [hopening] at hwhole
      rw [normalizeChars, if_pos hwhole, hwhole]
      exact ⟨fun _ => .inl rfl, fun _ => rfl⟩
  | false =>
      rw [isAbsoluteChars_normalizeChars_iff (hwhole.trans hopening)]
      exact ⟨.inr, fun h => h.resolve_left Bool.false_ne_true⟩

theorem directoryChars_ne_nil (cs : List Char) : directoryChars cs ≠ [] := by
  unfold directoryChars
  split
  · split <;> exact List.cons_ne_nil _ _
  · split
    · exact List.cons_ne_nil _ _
    · rename_i hparent _
      exact hparent
    · exact List.cons_ne_nil _ _

end StylePrint.UrlPath
