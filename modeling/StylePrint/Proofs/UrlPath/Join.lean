import StylePrint.Proofs.UrlPath.Beside
import StylePrint.Proofs.UrlPath.Location
/-!
Paths that are read from one directory and then from another. Read from a directory, a path leads on
from the place that the directory denotes (`ofPath_joinChars`), so reading it from the first
directory and the result from the second is reading it from both joined (`join_assoc`).
-/

namespace StylePrint.UrlPath

open Location

/-! ### Absolute addresses -/

/-- No mark of a scheme arises around a slash that is put between two paths. -/
theorem hasSchemeMark_append_slash {xs ys : List Char} (hxs : xs.getLast? ≠ some '/')
    (hys : isRooted ys = false) :
    hasSchemeMark (xs ++ '/' :: ys) = (hasSchemeMark xs || hasSchemeMark ys) := by
  induction xs with
  | nil => rfl
  | cons c xs ih =>
      -- a mark at the front that takes in the slash needs another one before or behind it
      have hmark : [':', '/', '/'].isPrefixOf (c :: (xs ++ '/' :: ys))
          = [':', '/', '/'].isPrefixOf (c :: xs) := by
        match xs, ys with
        | [], [] => simp [List.isPrefixOf]
        | [], y :: ys =>
            have hy : '/' ≠ y := fun h => by simp [isRooted, ← h] at hys
            simp [List.isPrefixOf, hy]
        | [x], ys =>
            have hx : '/' ≠ x := fun h => by simp [← h] at hxs
            simp [List.isPrefixOf, hx]
        | x :: y :: xs, ys => simp [List.isPrefixOf]
      have hrest : hasSchemeMark (xs ++ '/' :: ys) = (hasSchemeMark xs || hasSchemeMark ys) := by
        cases xs with
        | nil => rfl
        | cons x xs => exact ih (by rwa [List.getLast?_cons_cons] at hxs)
      rw [List.cons_append, hasSchemeMark, hmark, hrest, hasSchemeMark, Bool.or_assoc]

/-- A slash behind a path does not tell whether it begins like a data address. -/
theorem isData_append_slash (xs ys : List Char) : isData (xs ++ '/' :: ys) = isData xs := by
  rcases xs with _ | ⟨a, _ | ⟨b, _ | ⟨c, _ | ⟨d, _ | ⟨e, rest⟩⟩⟩⟩⟩ <;>
    simp [isData, List.isPrefixOf]

theorem hasSchemeMark_append {xs : List Char} (h : hasSchemeMark xs = true) (ys : List Char) :
    hasSchemeMark (xs ++ ys) = true := by
  rw [hasSchemeMark_iff] at h ⊢
  exact h.trans (List.prefix_append xs ys).isInfix

theorem getLast?_trimSlashes (cs : List Char) : (trimSlashes cs).getLast? ≠ some '/' := by
  induction cs using List.reverseRecOn with
  | nil => exact nofun
  | append_singleton cs c ih =>
      by_cases hc : c = '/'
      · subst hc
        rwa [trimSlashes_concat_slash]
      · rw [trimSlashes_concat hc, List.getLast?_concat]
        exact fun h => hc (Option.some.inj h)

/-- A slash between two paths, of which the second is relative, does not tell whether they make an
absolute address. -/
theorem isAbsoluteChars_append_slash {xs ys : List Char} (hxs : xs.getLast? ≠ some '/')
    (hys : isAbsoluteChars ys = false) (hrelative : isRooted ys = false) :
    isAbsoluteChars (xs ++ '/' :: ys) = isAbsoluteChars xs := by
  rw [isAbsoluteChars, Bool.or_eq_false_iff] at hys
  rw [isAbsoluteChars, isData_append_slash, hasSchemeMark_append_slash hxs hrelative, hys.2,
    Bool.or_false]
  rfl

/-- A path without the slashes at its end is no absolute address if it is none with them. -/
theorem isAbsoluteChars_trimSlashes {cs : List Char} (h : isAbsoluteChars cs = false) :
    isAbsoluteChars (trimSlashes cs) = false := by
  obtain ⟨slashes, hcs⟩ := trimSlashes_isPrefix cs
  rw [isAbsoluteChars, Bool.or_eq_false_iff] at h ⊢
  constructor
  · rw [Bool.eq_false_iff]
    intro hdata
    have hprefix := (List.isPrefixOf_iff_prefix.mp hdata).trans (trimSlashes_isPrefix cs)
    exact Bool.noConfusion (h.1.symm.trans (List.isPrefixOf_iff_prefix.mpr hprefix))
  · rw [Bool.eq_false_iff]
    intro hmark
    have hmark := hasSchemeMark_append hmark slashes
    rw [hcs] at hmark
    exact Bool.noConfusion (h.2.symm.trans hmark)

/-! ### Reading from a directory -/

/-- The characters that stand before a path that is read from a directory. -/
def opening (root : List Char) : List Char :=
  trimSlashes (if root = [] then here else root)

section Join

variable {root cs : List Char}

theorem isRooted_opening (root cs : List Char) :
    isRooted (opening root ++ '/' :: cs) = isRooted root := by
  unfold opening
  split
  · rename_i hroot
    subst hroot
    rfl
  · rename_i hroot
    rw [isRooted_trimSlashes root cs [], isRooted_append hroot]

theorem isAbsoluteChars_opening (hroot : isAbsoluteChars root = false)
    (hcs : isAbsoluteChars cs = false) (hrelative : isRooted cs = false) :
    isAbsoluteChars (opening root ++ '/' :: cs) = false := by
  have hroot : isAbsoluteChars (if root = [] then here else root) = false := by
    split
    · rfl
    · exact hroot
  rw [opening, isAbsoluteChars_append_slash (getLast?_trimSlashes _) hcs hrelative]
  exact isAbsoluteChars_trimSlashes hroot

/-- What stands before the path leads from every place where the directory leads. -/
theorem follow_opening (rooted : Bool) (l : Location) (root : List Char) :
    l.follow rooted ((opening root).splitOn '/') = l.follow rooted (root.splitOn '/') := by
  unfold opening
  split
  · rename_i hroot
    subst hroot
    rfl
  · have hwalk := walk_trimSlashes (linkless_location rooted) l root
    rw [walk_location, walk_location] at hwalk
    exact Option.some.inj hwalk

theorem joinChars_of_rooted (h : isRooted cs = true) (root : List Char) :
    joinChars root cs = cs := by
  rw [joinChars, h, Bool.or_true, if_pos rfl]

theorem joinChars_of_relative (hcs : isAbsoluteChars cs = false) (hrelative : isRooted cs = false)
    (root : List Char) : joinChars root cs = normalizeChars (opening root ++ '/' :: cs) := by
  rw [joinChars, hcs, hrelative]
  rfl

/-- A path behind a directory leads on from the place of the directory. -/
theorem ofPath_opening (root cs : List Char) :
    ofPath (opening root ++ '/' :: cs)
      = (ofPath root).follow (isRooted root) (cs.splitOn '/') := by
  rw [ofPath, isRooted_opening, List.splitOn_append_cons_self, follow_append, follow_opening]
  rfl

variable (hroot : isAbsoluteChars root = false) (hcs : isAbsoluteChars cs = false)
  (hrelative : isRooted cs = false)

include hroot hcs hrelative

/-- Read from a rooted directory, and from no other, a relative path is rooted. -/
theorem isRooted_joinChars : isRooted (joinChars root cs) = isRooted root := by
  rw [joinChars_of_relative hcs hrelative,
    isRooted_normalizeChars (isAbsoluteChars_opening hroot hcs hrelative), isRooted_opening]

/-- **Read from a directory, a path leads on from the place of the directory.** -/
theorem ofPath_joinChars :
    ofPath (joinChars root cs) = (ofPath root).follow (isRooted root) (cs.splitOn '/') := by
  rw [joinChars_of_relative hcs hrelative,
    ofPath_normalizeChars (isAbsoluteChars_opening hroot hcs hrelative), ofPath_opening]

/-- Read from a relative directory, a path leads from every place where the directory and then the
path lead. -/
theorem follow_joinChars (hrooted : isRooted root = false) (rooted : Bool) (l : Location) :
    l.follow rooted ((joinChars root cs).splitOn '/')
      = (l.follow rooted (root.splitOn '/')).follow rooted (cs.splitOn '/') := by
  have hopening : isRooted (opening root ++ '/' :: cs) = false :=
    (isRooted_opening root cs).trans hrooted
  rw [joinChars_of_relative hcs hrelative,
    follow_normalizeChars (isAbsoluteChars_opening hroot hcs hrelative) hopening,
    List.splitOn_append_cons_self, follow_append, follow_opening]

end Join

theorem joinChars_joinChars {d r s : List Char} (hd : isAbsoluteChars d = false)
    (hr : isAbsoluteChars r = false) (hs : isAbsoluteChars s = false)
    (hdr : isAbsoluteChars (joinChars d r) = false)
    (hrs : isAbsoluteChars (joinChars r s) = false) :
    joinChars d (joinChars r s) = joinChars (joinChars d r) s := by
  cases hsrooted : isRooted s with
  | true => simp only [joinChars_of_rooted hsrooted]
  | false =>
      have hjoin := isRooted_joinChars hr hs hsrooted
      cases hrrooted : isRooted r with
      | true =>
          rw [hrrooted] at hjoin
          rw [joinChars_of_rooted hrrooted, joinChars_of_rooted hjoin]
      | false =>
          -- both sides are normal forms of paths that denote one place
          rw [hrrooted] at hjoin
          have hdrrooted := isRooted_joinChars hd hr hrrooted
          rw [joinChars_of_relative hrs hjoin d, joinChars_of_relative hs hsrooted (joinChars d r),
            normalizeChars_eq_iff (isAbsoluteChars_opening hd hrs hjoin)
              (isAbsoluteChars_opening hdr hs hsrooted), isRooted_opening, isRooted_opening,
            ofPath_opening, ofPath_opening, hdrrooted, ofPath_joinChars hd hr hrrooted,
            follow_joinChars hr hs hsrooted hrrooted]
          exact ⟨rfl, rfl⟩

/-- **Reading a path from one directory and then from another is reading it from both joined**,
unless an absolute address arises on the way. -/
theorem join_assoc {d r s : String} (hd : isAbsolute d = false) (hr : isAbsolute r = false)
    (hs : isAbsolute s = false) (hdr : isAbsolute (join d r) = false)
    (hrs : isAbsolute (join r s) = false) : join d (join r s) = join (join d r) s := by
  have hchars : ∀ root path, (join root path).toList = joinChars root.toList path.toList :=
    fun _ _ => String.toList_ofList
  rw [isAbsolute, hchars] at hdr hrs
  rw [← String.toList_inj, hchars, hchars, hchars, hchars, joinChars_joinChars hd hr hs hdr hrs]

/-- From the root, through a directory and more ways up than lead back to it. -/
theorem join_assoc_of_clamped :
    (isAbsolute "/x/" = false ∧ isAbsolute "../../a/" = false ∧ isAbsolute "./../b//c/" = false ∧
        isAbsolute (join "/x/" "../../a/") = false ∧
        isAbsolute (join "../../a/" "./../b//c/") = false) ∧
      join "/x/" (join "../../a/" "./../b//c/") = join (join "/x/" "../../a/") "./../b//c/" := by
  have hd : isAbsolute "/x/" = false := by decide
  have hr : isAbsolute "../../a/" = false := by decide
  have hs : isAbsolute "./../b//c/" = false := by decide
  have hdr : isAbsolute (join "/x/" "../../a/") = false := by decide
  have hrs : isAbsolute (join "../../a/" "./../b//c/") = false := by decide
  exact ⟨⟨hd, hr, hs, hdr, hrs⟩, join_assoc hd hr hs hdr hrs⟩

end StylePrint.UrlPath
