import StylePrint.Proofs.UrlPath.Walk
/-!
Which places paths denote. Read from left to right, a name descends, `..` undoes the last name, and
where there is none it climbs above the start of a relative path and stays at the root of a rooted
one (`Location.enter`). The normal form of a path spells the place that the path denotes
(`normalizeChars_eq_spell`) and denotes it itself (`ofPath_normalizeChars`), so there is one normal
form for each place (`normal_form_is_canonical`).
-/

namespace StylePrint.UrlPath

/-! ### Locations -/

/-- A place as a path tells it: how far above the start it lies, and the names that lead down to it
from there, the last one first. -/
structure Location where
  climbs : Nat
  names : List Segment
  deriving DecidableEq, Repr

namespace Location

/-- Where paths start. -/
def start : Location := ⟨0, []⟩

/-- Goes on by a segment: a name descends, `..` undoes the last name, and where there is none it
climbs above the start of a relative path and stays at the root of a rooted one. -/
def enter (rooted : Bool) (l : Location) (segment : Segment) : Location :=
  if segment = [] ∨ segment = here then l
  else if segment = up then
    match l.names with
    | _ :: names => ⟨l.climbs, names⟩
    | [] => if rooted then l else ⟨l.climbs + 1, []⟩
  else ⟨l.climbs, segment :: l.names⟩

/-- Goes on by segments. -/
def follow (rooted : Bool) (l : Location) (segments : List Segment) : Location :=
  segments.foldl (enter rooted) l

/-- The place that a path denotes. -/
def ofPath (cs : List Char) : Location :=
  follow (isRooted cs) start (cs.splitOn '/')

/-- The segments that lead to a place: the ways up, and then the names. -/
def segments (l : Location) : List Segment :=
  List.replicate l.climbs up ++ l.names.reverse

/-- What holds of the places that paths denote. -/
structure Proper (rooted : Bool) (l : Location) : Prop where
  isName : ∀ name ∈ l.names, IsName name
  root : rooted = true → l.climbs = 0

end Location

open Location

/-! ### Normal form -/

section Enter

variable {rooted : Bool} {l : Location} {segment : Segment}

theorem enter_of_nothing (h : segment = [] ∨ segment = here) : l.enter rooted segment = l :=
  if_pos h

theorem enter_name (h : IsName segment) :
    l.enter rooted segment = ⟨l.climbs, segment :: l.names⟩ := by
  rw [enter, if_neg (not_or.mpr ⟨h.1, h.2.1⟩), if_neg h.2.2]

theorem enter_up : l.enter rooted up = match l.names with
    | _ :: names => ⟨l.climbs, names⟩
    | [] => if rooted then l else ⟨l.climbs + 1, []⟩ := by
  rw [enter, if_neg (by decide), if_pos rfl]

/-- Every segment says nothing, leads up or is a name. -/
theorem segment_cases (segment : Segment) :
    (segment = [] ∨ segment = here) ∨ segment = up ∨ IsName segment := by
  by_cases hnothing : segment = [] ∨ segment = here
  · exact .inl hnothing
  · by_cases hup : segment = up
    · exact .inr (.inl hup)
    · obtain ⟨hempty, hhere⟩ := not_or.mp hnothing
      exact .inr (.inr ⟨hempty, hhere, hup⟩)

theorem proper_start (rooted : Bool) : Proper rooted start :=
  ⟨nofun, fun _ => rfl⟩

theorem Location.Proper.enter (h : Proper rooted l) (segment : Segment) :
    Proper rooted (l.enter rooted segment) := by
  rcases segment_cases segment with hnothing | rfl | hname
  · rwa [enter_of_nothing hnothing]
  · rw [enter_up]
    obtain ⟨climbs, names⟩ := l
    cases names with
    | cons name names => exact ⟨(List.forall_mem_cons.mp h.isName).2, h.root⟩
    | nil =>
        cases rooted with
        | true => exact h
        | false => exact ⟨nofun, nofun⟩
  · rw [enter_name hname]
    exact ⟨List.forall_mem_cons.mpr ⟨hname, h.isName⟩, h.root⟩

theorem reverse_segments (l : Location) :
    l.segments.reverse = l.names ++ List.replicate l.climbs up := by
  rw [segments, List.reverse_append, List.reverse_reverse, List.reverse_replicate]

/-- Taking a segment onto the stack that leads to a place goes on by the segment. -/
theorem push_segments (h : Proper rooted l) (segment : Segment) :
    push rooted l.segments.reverse segment = (l.enter rooted segment).segments.reverse := by
  rcases segment_cases segment with hnothing | rfl | hname
  · rw [enter_of_nothing hnothing]
    exact if_pos hnothing
  · rw [enter_up, reverse_segments, reverse_segments]
    unfold push
    rw [if_neg (by decide), if_pos rfl]
    obtain ⟨climbs, names⟩ := l
    cases names with
    | cons name names => exact if_neg (h.isName name List.mem_cons_self).2.2
    | nil =>
        cases rooted with
        | true =>
            obtain rfl : climbs = 0 := h.root rfl
            rfl
        | false =>
            cases climbs with
            | zero => rfl
            | succ climbs => rfl
  · rw [enter_name hname, reverse_segments, reverse_segments]
    unfold push
    rw [if_neg (not_or.mpr ⟨hname.1, hname.2.1⟩), if_neg hname.2.2]
    rfl

end Enter

section Follow

variable {rooted : Bool} {l : Location} {segments : List Segment}

theorem Location.Proper.follow (h : Proper rooted l) (segments : List Segment) :
    Proper rooted (l.follow rooted segments) := by
  induction segments generalizing l with
  | nil => exact h
  | cons segment rest ih => exact ih (h.enter segment)

theorem follow_append (rooted : Bool) (l : Location) (xs ys : List Segment) :
    l.follow rooted (xs ++ ys) = (l.follow rooted xs).follow rooted ys :=
  List.foldl_append

/-- The segments that are left lead to the place that all lead to. -/
theorem settle_eq_segments (rooted : Bool) (segments : List Segment) :
    settle rooted segments = (start.follow rooted segments).segments := by
  have along : ∀ (segments : List Segment) (l : Location), Proper rooted l →
      segments.foldl (push rooted) l.segments.reverse
        = (l.follow rooted segments).segments.reverse := by
    intro segments
    induction segments with
    | nil => exact fun l _ => rfl
    | cons segment rest ih =>
        intro l hl
        rw [List.foldl_cons, push_segments hl, ih _ (hl.enter segment)]
        rfl
  have hstart := along segments start (proper_start rooted)
  rw [settle]
  exact (congrArg List.reverse hstart).trans (List.reverse_reverse _)

/-- No links lead from place to place. -/
theorem linkless_location (rooted : Bool) :
    Linkless fun (l : Location) segment => some (l.enter rooted segment) where
  empty l := congrArg some (enter_of_nothing (.inl rfl))
  here l := congrArg some (enter_of_nothing (.inr rfl))
  up := by
    intro d e f name hname henter hup
    rw [enter_name hname] at henter
    obtain rfl := Option.some.inj henter
    rw [enter_up] at hup
    exact (Option.some.inj hup).symm

theorem walk_location (rooted : Bool) (l : Location) (segments : List Segment) :
    walk (fun (l : Location) segment => some (l.enter rooted segment)) l segments
      = some (l.follow rooted segments) := by
  induction segments generalizing l with
  | nil => rfl
  | cons segment rest ih => exact ih (l.enter rooted segment)

/-- The segments that are left of a relative path lead from every place where all lead. -/
theorem follow_settle (rooted : Bool) (l : Location) (segments : List Segment) :
    l.follow rooted (settle false segments) = l.follow rooted segments := by
  have hwalk : walk _ l (settle false segments) = some (l.follow rooted segments) :=
    walk_settle (linkless_location rooted) nofun (walk_location rooted l segments)
  exact Option.some.inj ((walk_location rooted l _).symm.trans hwalk)

/-- The segments that are left of a rooted path lead from the root where all lead. -/
theorem follow_settle_rooted (segments : List Segment) :
    start.follow true (settle true segments) = start.follow true segments := by
  have hroot : ∀ d, some (start.enter true up) = some d → d = start := by
    rintro d ⟨⟩
    rfl
  have hwalk : walk _ start (settle true segments) = some (start.follow true segments) :=
    walk_settle (linkless_location true) (fun _ => hroot) (walk_location true start segments)
  exact Option.some.inj ((walk_location true start _).symm.trans hwalk)

end Follow

/-! ### Spelled places -/

section Spell

variable {segments : List Segment}

/-- Spelled segments lead where the segments lead. -/
theorem follow_spell (hsegments : ∀ segment ∈ segments, segment ≠ [] ∧ '/' ∉ segment)
    (rooted other : Bool) (l : Location) :
    l.follow other ((spell rooted segments).splitOn '/') = l.follow other segments := by
  cases segments with
  | nil =>
      cases rooted with
      | true => rfl
      | false => rfl
  | cons first rest =>
      rw [splitOn_spell hsegments (List.cons_ne_nil first rest)]
      cases rooted with
      | true => rfl
      | false => rfl

end Spell

/-! ### Canonical paths -/

/-- Whether a path has no segment that says nothing, and no ways up but in front of the names of a
relative path. Where no segment is left, a path is its root or the directory itself. -/
inductive Canonical : List Char → Prop where
  | root : Canonical ['/']
  | here : Canonical here
  | rooted {cs : List Char} {names : List Segment} (hne : names ≠ [])
      (hnames : ∀ name ∈ names, IsName name) (hsegments : cs.splitOn '/' = [] :: names) :
      Canonical cs
  | relative {cs : List Char} {climbs : Nat} {names : List Segment}
      (hnames : ∀ name ∈ names, IsName name)
      (hsegments : cs.splitOn '/' = List.replicate climbs up ++ names) : Canonical cs

/-- A place is spelled by a canonical path. -/
theorem canonical_spell {rooted : Bool} {l : Location} (h : Proper rooted l)
    (hsegments : ∀ segment ∈ l.segments, segment ≠ [] ∧ '/' ∉ segment) :
    Canonical (spell rooted l.segments) := by
  have hnames : ∀ name ∈ l.names.reverse, IsName name :=
    fun name hname => h.isName name (List.mem_reverse.mp hname)
  by_cases hne : l.segments = []
  · rw [hne]
    cases rooted with
    | true => exact .root
    | false => exact .here
  · have hsplit := splitOn_spell hsegments hne rooted
    cases rooted with
    | true =>
        have hroot : l.segments = l.names.reverse := by
          rw [Location.segments, h.root rfl]
          rfl
        rw [hroot] at hne hsplit ⊢
        exact .rooted hne hnames hsplit
    | false => exact .relative hnames hsplit

section NormalForm

variable {cs : List Char}

theorem normalizeChars_eq_spell (habsolute : isAbsoluteChars cs = false) :
    normalizeChars cs = spell (isRooted cs) (ofPath cs).segments := by
  rw [normalizeChars_of_path habsolute, settle_eq_segments]
  rfl

theorem mem_segments_ofPath (cs : List Char) :
    ∀ segment ∈ (ofPath cs).segments, segment ≠ [] ∧ '/' ∉ segment := by
  rw [ofPath, ← settle_eq_segments]
  exact mem_settle (isRooted cs) cs

/-- The normal form of a relative path leads from every place where the path leads. -/
theorem follow_normalizeChars (habsolute : isAbsoluteChars cs = false)
    (hrelative : isRooted cs = false) (rooted : Bool) (l : Location) :
    l.follow rooted ((normalizeChars cs).splitOn '/') = l.follow rooted (cs.splitOn '/') := by
  rw [normalizeChars_eq_spell habsolute, follow_spell (mem_segments_ofPath cs), ofPath,
    ← settle_eq_segments, hrelative, follow_settle]

/-- The normal form of a path denotes the place that the path denotes. -/
theorem ofPath_normalizeChars (habsolute : isAbsoluteChars cs = false) :
    ofPath (normalizeChars cs) = ofPath cs := by
  have hrooted := isRooted_normalizeChars habsolute
  cases hcs : isRooted cs with
  | false =>
      rw [ofPath, hrooted, hcs, follow_normalizeChars habsolute hcs, ofPath, hcs]
  | true =>
      rw [ofPath, hrooted, normalizeChars_eq_spell habsolute,
        follow_spell (mem_segments_ofPath cs), ofPath, ← settle_eq_segments, hcs,
        follow_settle_rooted]

/-- **There is one normal form for each place.** -/
theorem normalizeChars_eq_iff {other : List Char} (habsolute : isAbsoluteChars cs = false)
    (hother : isAbsoluteChars other = false) :
    normalizeChars cs = normalizeChars other ↔
      isRooted cs = isRooted other ∧ ofPath cs = ofPath other := by
  constructor
  · intro h
    rw [← isRooted_normalizeChars habsolute, ← isRooted_normalizeChars hother,
      ← ofPath_normalizeChars habsolute, ← ofPath_normalizeChars hother, h]
    exact ⟨rfl, rfl⟩
  · rintro ⟨hrooted, hplace⟩
    rw [normalizeChars_eq_spell habsolute, normalizeChars_eq_spell hother, hrooted, hplace]

/-- A normal form is its own normal form, also where it spells an absolute address. -/
theorem normalizeChars_normalizeChars (habsolute : isAbsoluteChars cs = false) :
    normalizeChars (normalizeChars cs) = normalizeChars cs := by
  cases hnormal : isAbsoluteChars (normalizeChars cs) with
  | true => exact if_pos hnormal
  | false =>
      exact (normalizeChars_eq_iff hnormal habsolute).mpr
        ⟨isRooted_normalizeChars habsolute, ofPath_normalizeChars habsolute⟩

theorem canonical_normalizeChars (habsolute : isAbsoluteChars cs = false) :
    Canonical (normalizeChars cs) := by
  have hproper : Proper (isRooted cs) (ofPath cs) :=
    (proper_start _).follow (cs.splitOn '/')
  rw [normalizeChars_eq_spell habsolute]
  exact canonical_spell hproper (mem_segments_ofPath cs)

end NormalForm

/-- **The normal form of a path is canonical**: it is rooted exactly when the path is, it has no
segment that says nothing and no avoidable way up, it is its own normal form, and two paths have the
same one exactly when both are rooted or neither is and they denote the same place. -/
theorem normal_form_is_canonical {path : String} (h : isAbsolute path = false) :
    isRooted (normalize path).toList = isRooted path.toList ∧
      Canonical (normalize path).toList ∧
      normalize (normalize path) = normalize path ∧
      ∀ other, isAbsolute other = false →
        (normalize path = normalize other ↔
          isRooted path.toList = isRooted other.toList ∧
            ofPath path.toList = ofPath other.toList) := by
  have hchars : ∀ path, (normalize path).toList = normalizeChars path.toList :=
    fun _ => String.toList_ofList
  refine ⟨?_, ?_, ?_, ?_⟩
  · rw [hchars, isRooted_normalizeChars h]
  · rw [hchars]
    exact canonical_normalizeChars h
  · rw [← String.toList_inj, hchars, hchars, normalizeChars_normalizeChars h]
  · intro other hother
    rw [← String.toList_inj, hchars, hchars, normalizeChars_eq_iff h hother]

/-- Two ways to a name above the start: one through a directory that is left at once and with
slashes that say nothing, the other back from beside the name. -/
theorem normal_form_is_canonical_of_climbs :
    isAbsolute "a/./../..//b/" = false ∧ isAbsolute "../c/../b" = false ∧
      ofPath "a/./../..//b/".toList = ⟨1, ["b".toList]⟩ ∧
      normalize "a/./../..//b/" = normalize "../c/../b" := by
  have hpath : isAbsolute "a/./../..//b/" = false := by decide
  have hother : isAbsolute "../c/../b" = false := by decide
  exact ⟨hpath, hother, by decide,
    ((normal_form_is_canonical hpath).2.2.2 _ hother).mpr ⟨by decide, by decide⟩⟩

end StylePrint.UrlPath
