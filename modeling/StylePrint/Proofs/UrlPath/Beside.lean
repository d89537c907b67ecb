import StylePrint.Proofs.UrlPath.Walk
/-!
Names beside the one that a path ends in. Read from the directory of a path, a name stands behind
the last slash of the path, in normal form (`joinChars_parent`, `joinChars_here`). So it leads into
the directory that the path leads into (`Reaches.join`).
-/

namespace StylePrint.UrlPath

/-! ### Joining with the directory of a path -/

/-- Slashes at the end do not tell whether a path is rooted, as long as one is left. -/
theorem isRooted_trimSlashes (cs xs ys : List Char) :
    isRooted (trimSlashes cs ++ '/' :: xs) = isRooted (cs ++ '/' :: ys) := by
  induction cs using List.reverseRecOn generalizing ys with
  | nil => rfl
  | append_singleton cs c ih =>
      rw [List.append_assoc, List.singleton_append]
      by_cases hc : c = '/'
      · subst hc
        rw [trimSlashes_concat_slash]
        exact ih ('/' :: ys)
      · rw [trimSlashes_concat hc]
        cases cs <;> rfl

theorem trimSlashes_append {last : List Char} (hlast : last ≠ []) (hslash : '/' ∉ last)
    (cs : List Char) : trimSlashes (cs ++ last) = cs ++ last := by
  rcases List.eq_nil_or_concat last with rfl | ⟨front, c, rfl⟩
  · exact absurd rfl hlast
  · have hc : c ≠ '/' := by
      rintro rfl
      exact hslash (by simp)
    rw [List.concat_eq_append, ← List.append_assoc, trimSlashes_concat hc]

theorem dropWhile_name {cs : List Char} (h : '/' ∉ cs) (rest : List Char) :
    (cs.reverse ++ rest).dropWhile (· ≠ '/') = rest.dropWhile (· ≠ '/') := by
  refine List.dropWhile_append_of_pos ?_
  intro c hc
  refine decide_eq_true ?_
  rintro rfl
  exact h (List.mem_reverse.mp hc)

theorem directoryChars_of_trim {cs : List Char} (hcs : cs ≠ []) (htrim : trimSlashes cs = cs) :
    directoryChars cs
      = match beforeLastSlash? cs with
        | some [] => ['/']
        | some parent => parent
        | none => here := by
  unfold directoryChars
  rw [htrim]
  split
  · exact absurd rfl hcs
  · rfl

/-- A name alone stands in the directory where paths begin. -/
theorem directoryChars_name {cs : List Char} (hcs : cs ≠ []) (h : '/' ∉ cs) :
    directoryChars cs = here := by
  have hbefore : beforeLastSlash? cs = none := by
    have hdrop := dropWhile_name h []
    rw [List.append_nil] at hdrop
    rw [beforeLastSlash?, hdrop]
    rfl
  rw [directoryChars_of_trim hcs (trimSlashes_append hcs h []), hbefore]

theorem directoryChars_parent {last : List Char} (hlast : last ≠ []) (h : '/' ∉ last)
    (parent : List Char) :
    directoryChars (parent ++ '/' :: last) = if parent = [] then ['/'] else parent := by
  have hbefore : beforeLastSlash? (parent ++ '/' :: last) = some parent := by
    have hdrop := dropWhile_name h ('/' :: parent.reverse)
    rw [beforeLastSlash?, List.reverse_append, List.reverse_cons, List.append_assoc,
      List.singleton_append, hdrop]
    exact congrArg some (List.reverse_reverse parent)
  have htrim : trimSlashes (parent ++ '/' :: last) = parent ++ '/' :: last := by
    have happend := trimSlashes_append hlast h (parent ++ ['/'])
    rwa [List.append_assoc, List.singleton_append] at happend
  rw [directoryChars_of_trim (by simp) htrim, hbefore]
  cases parent with
  | nil => rfl
  | cons c parent => rfl

theorem hasSchemeMark_iff {cs : List Char} :
    hasSchemeMark cs = true ↔ [':', '/', '/'] <:+: cs := by
  induction cs with
  | nil => simp [hasSchemeMark]
  | cons c cs ih =>
      rw [hasSchemeMark, Bool.or_eq_true, List.isPrefixOf_iff_prefix, ih, List.infix_cons_iff]

section Beside

variable {beside : Segment} (hbeside : '/' ∉ beside) (hdata : isData beside = false)

include hbeside

theorem hasSchemeMark_of_not_mem : hasSchemeMark beside = false := by
  rw [Bool.eq_false_iff, Ne, hasSchemeMark_iff]
  intro hmark
  exact hbeside (hmark.subset (List.mem_cons_of_mem ':' List.mem_cons_self))

include hdata

/-- A name that is no data address is put behind the directory that it is read from. -/
theorem joinChars_name {root : List Char} (hroot : root ≠ []) :
    joinChars root beside = normalizeChars (trimSlashes root ++ '/' :: beside) := by
  have habsolute : isAbsoluteChars beside = false := by
    rw [isAbsoluteChars, hdata, hasSchemeMark_of_not_mem hbeside]
    rfl
  have hrooted : isRooted beside = false := by
    refine decide_eq_false ?_
    intro hhead
    exact hbeside (List.mem_of_mem_head? hhead)
  rw [joinChars, habsolute, hrooted, if_neg hroot]
  rfl

/-- Read from the directory of a name, another name is itself. -/
theorem joinChars_here (hname : IsName beside) : joinChars here beside = beside := by
  have habsolute : isAbsoluteChars ('.' :: '/' :: beside) = false := by
    have hmark : hasSchemeMark ('.' :: '/' :: beside) = hasSchemeMark beside := rfl
    rw [isAbsoluteChars, hmark, hasSchemeMark_of_not_mem hbeside]
    rfl
  have hsegments : ('.' :: '/' :: beside).splitOn '/' = [here] ++ [beside] := by
    have hsplit := List.splitOn_append_cons_self (a := '/') ['.'] beside
    rw [List.splitOn_eq_singleton hbeside] at hsplit
    exact hsplit
  have hsettle : settle false ([here] ++ [beside]) = [beside] := settle_concat hname false [here]
  rw [joinChars_name hbeside hdata (by decide)]
  show normalizeChars ('.' :: '/' :: beside) = beside
  have hrooted : isRooted ('.' :: '/' :: beside) = false := rfl
  rw [normalizeChars_of_path habsolute, hrooted, hsegments, hsettle, spell,
    List.intercalate_singleton]
  exact if_neg hname.1

/-- Read from the directory of a path, a name stands behind what the path has in front of its last
slash. -/
theorem joinChars_parent {last : List Char} (hlast : last ≠ []) (h : '/' ∉ last)
    (parent : List Char) :
    joinChars (directoryChars (parent ++ '/' :: last)) beside
      = normalizeChars (trimSlashes parent ++ '/' :: beside) := by
  rw [directoryChars_parent hlast h]
  split
  · rename_i hparent
    subst hparent
    exact joinChars_name hbeside hdata (by decide)
  · rename_i hparent
    exact joinChars_name hbeside hdata hparent

variable {D : Type} {enter : D → Segment → Option D} {start : Bool → Option D}
  {cs : List Char} {d : D} {name : Segment}

/-- **A name beside the one that a path leads to is reached when it is read from the directory of
the path.** -/
theorem Reaches.join (h : Reaches enter start cs d name) (hne : name ≠ []) (hname : IsName beside)
    (hlinkless : Linkless enter) (htop : Topped enter start) :
    Reaches enter start (joinChars (directoryChars cs) beside) d beside := by
  by_cases hcs : '/' ∈ cs
  · obtain ⟨parent, last, rfl, hlast⟩ := exists_last_slash hcs
    obtain ⟨rfl, e, hstart, hwalk⟩ := (reaches_parent hlast).mp h
    rw [joinChars_parent hbeside hdata hne hlast]
    refine Reaches.normalizeChars ?_ hname hlinkless htop
    refine (reaches_parent hbeside).mpr ⟨rfl, e, ?_, ?_⟩
    · rwa [isRooted_trimSlashes parent beside last]
    · rwa [walk_trimSlashes hlinkless]
  · obtain ⟨rfl, hstart⟩ := (reaches_name hcs).mp h
    have hunrooted : ∀ name : Segment, name ≠ [] → '/' ∉ name → isRooted name = false := by
      intro name hne hslash
      exact not_isRooted (List.splitOn_eq_singleton hslash) hne
    rw [directoryChars_name hne hcs, joinChars_here hbeside hdata hname]
    refine (reaches_name hbeside).mpr ⟨rfl, ?_⟩
    rwa [hunrooted beside hname.1 hbeside, ← hunrooted cs hne hcs]

end Beside

/-- Read from the directory of a path, the path's own name with a suffix makes no longer path than
the suffix behind the path. -/
theorem sublist_joinChars {cs suffix : List Char} {segments : List Segment} {name : Segment}
    (hsegments : cs.splitOn '/' = segments ++ [name]) (hne : name ≠ [])
    (hname : IsName (name ++ suffix)) (hsuffix : '/' ∉ suffix)
    (hdata : isData (name ++ suffix) = false) :
    (joinChars (directoryChars cs) (name ++ suffix)).Sublist (cs ++ suffix) := by
  have hslash : '/' ∉ name ++ suffix := by
    simp [slash_not_mem_last hsegments, hsuffix]
  by_cases hcs : '/' ∈ cs
  · obtain ⟨parent, last, rfl, hlast⟩ := exists_last_slash hcs
    rw [List.splitOn_append_cons_self, List.splitOn_eq_singleton hlast] at hsegments
    obtain ⟨-, rfl⟩ := List.append_singleton_inj.mp hsegments
    have hsplit := List.splitOn_append_cons_self (a := '/') (trimSlashes parent) (last ++ suffix)
    rw [List.splitOn_eq_singleton hslash] at hsplit
    have hfull := (trimSlashes_isPrefix parent).sublist.append
      (List.Sublist.refl ('/' :: (last ++ suffix)))
    rw [joinChars_parent hslash hdata hne hlast, List.append_assoc]
    exact (sublist_normalizeChars hname hsplit).trans hfull
  · rw [List.splitOn_eq_singleton hcs] at hsegments
    obtain ⟨-, rfl⟩ := List.append_singleton_inj.mp ((List.nil_append [cs]).trans hsegments)
    rw [directoryChars_name hne hcs, joinChars_here hslash hdata hname]

end StylePrint.UrlPath
