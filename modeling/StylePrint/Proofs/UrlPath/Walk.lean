import StylePrint.Proofs.UrlPath.Normal
/-!
Where paths lead. A path is followed segment by segment from one directory to another. Where there
are no links, nothing and `.` stay, `..` undoes the step before it, and at the root it stays as
well; so putting a path into normal form does not change where it leads (`walk_settle`,
`Reaches.normalizeChars`).
-/

namespace StylePrint.UrlPath

/-! ### Following a path -/

section Walk

variable {D : Type} {enter : D → Segment → Option D}

/-- What holds of directories that are entered segment by segment where there are no links. -/
structure Linkless (enter : D → Segment → Option D) : Prop where
  empty : ∀ d, enter d [] = some d
  here : ∀ d, enter d here = some d
  /-- From where a name leads to there is no way up but back. -/
  up : ∀ {d e f name}, IsName name → enter d name = some e → enter e up = some f → f = d

/-- Follows segments from a directory. -/
def walk (enter : D → Segment → Option D) (d : D) (segments : List Segment) : Option D :=
  segments.foldlM enter d

theorem walk_cons (d : D) (segment : Segment) (rest : List Segment) :
    walk enter d (segment :: rest) = (enter d segment).bind fun e => walk enter e rest := rfl

theorem walk_append (d : D) (xs ys : List Segment) :
    walk enter d (xs ++ ys) = (walk enter d xs).bind fun e => walk enter e ys :=
  List.foldlM_append

theorem walk_singleton (d : D) (segment : Segment) :
    walk enter d [segment] = enter d segment := by
  rw [walk_cons]
  exact Option.bind_fun_some _

/-- Empty segments lead nowhere else. -/
theorem walk_trimSlashes (h : Linkless enter) (d : D) (cs : List Char) :
    walk enter d ((trimSlashes cs).splitOn '/') = walk enter d (cs.splitOn '/') := by
  induction cs using List.reverseRecOn with
  | nil => rfl
  | append_singleton cs c ih =>
      by_cases hc : c = '/'
      · subst hc
        rw [trimSlashes_concat_slash, ih, List.splitOn_append_cons_self, walk_append]
        cases walk enter d (cs.splitOn '/') with
        | none => rfl
        | some e => exact ((walk_singleton e []).trans (h.empty e)).symm
      · rw [trimSlashes_concat hc]

/-! ### Normal form -/

/-- Taking a segment onto the stack leads where the segment leads. -/
theorem walk_push (h : Linkless enter) {rooted : Bool} {start e f : D} {stack : List Segment}
    {segment : Segment} (hroot : rooted = true → ∀ d, enter start up = some d → d = start)
    (hstack : Stacked rooted stack) (hwalk : walk enter start stack.reverse = some e)
    (henter : enter e segment = some f) :
    walk enter start (push rooted stack segment).reverse = some f := by
  have hdeeper : walk enter start (segment :: stack).reverse = some f := by
    rw [List.reverse_cons, walk_append, hwalk, Option.bind_some, walk_singleton, henter]
  rcases push_cases rooted stack segment with ⟨hnothing, hpush⟩ | ⟨-, hpush⟩ |
    ⟨rfl, last, rest, rfl, hlast, hpush⟩ | ⟨rfl, -, hpush⟩ | ⟨rfl, rfl, hhead, hpush⟩
  · have hstay : enter e segment = some e := by
      rcases hnothing with rfl | rfl
      · exact h.empty e
      · exact h.here e
    rw [hpush, hwalk, ← hstay, henter]
  · rwa [hpush]
  · -- the name that is undone led from where the way up leads
    obtain ⟨hempty, hhere, -⟩ := hstack last List.mem_cons_self
    rw [List.reverse_cons, walk_append] at hwalk
    obtain ⟨d, hrest, hname⟩ := Option.bind_eq_some_iff.mp hwalk
    rw [walk_singleton] at hname
    rw [hpush, hrest, h.up ⟨hempty, hhere, hlast⟩ hname henter]
  · rwa [hpush]
  · cases stack with
    | nil =>
        obtain rfl : start = e := Option.some.inj hwalk
        rw [hpush, hroot rfl f henter]
        rfl
    | cons last rest => exact absurd hhead ((hstack last List.mem_cons_self).2.2 rfl)

/-- **Normal form does not change where segments lead**, where there are no links and the root lies
above itself. -/
theorem walk_settle (h : Linkless enter) {rooted : Bool} {start d : D} {segments : List Segment}
    (hroot : rooted = true → ∀ d, enter start up = some d → d = start)
    (hwalk : walk enter start segments = some d) :
    walk enter start (settle rooted segments) = some d := by
  have along : ∀ (segments stack : List Segment) (e : D), Stacked rooted stack →
      walk enter start stack.reverse = some e → walk enter e segments = some d →
      walk enter start (segments.foldl (push rooted) stack).reverse = some d := by
    intro segments
    induction segments with
    | nil =>
        intro stack e hstack hstart hrest
        rwa [Option.some.inj hrest] at hstart
    | cons segment rest ih =>
        intro stack e hstack hstart hrest
        rw [walk_cons] at hrest
        obtain ⟨f, henter, hrest⟩ := Option.bind_eq_some_iff.mp hrest
        exact ih _ f (hstack.push segment) (walk_push h hroot hstack hstart henter) hrest
  exact along segments [] start nofun rfl hwalk

end Walk

/-! ### Names in directories -/

section Reaches

variable {D : Type} {enter : D → Segment → Option D} {start : Bool → Option D}

/-- Whether a path leads to a name in a directory, from the root or the working directory. -/
def Reaches (enter : D → Segment → Option D) (start : Bool → Option D) (cs : List Char) (d : D)
    (name : Segment) : Prop :=
  ∃ segments e, cs.splitOn '/' = segments ++ [name] ∧ start (isRooted cs) = some e ∧
    walk enter e segments = some d

/-- Nothing lies above the root. -/
def Topped (enter : D → Segment → Option D) (start : Bool → Option D) : Prop :=
  ∀ root, start true = some root → ∀ d, enter root up = some d → d = root

variable {cs : List Char} {d : D} {name : Segment}

/-- **The normal form of a path leads where the path leads.** -/
theorem Reaches.normalizeChars (h : Reaches enter start cs d name) (hname : IsName name)
    (hlinkless : Linkless enter) (htop : Topped enter start) :
    Reaches enter start (normalizeChars cs) d name := by
  cases habsolute : isAbsoluteChars cs with
  | true => rwa [UrlPath.normalizeChars, if_pos habsolute]
  | false =>
      obtain ⟨segments, e, hsegments, hstart, hwalk⟩ := h
      have hsettle : walk enter e (settle (isRooted cs) segments) = some d := by
        refine walk_settle hlinkless ?_ hwalk
        intro hrooted
        rw [hrooted] at hstart
        exact htop e hstart
      refine ⟨(if isRooted cs then [[]] else []) ++ settle (isRooted cs) segments, e,
        splitOn_normalizeChars habsolute hname hsegments, ?_, ?_⟩
      · rwa [isRooted_normalizeChars habsolute]
      · split
        · show walk enter e ([] :: settle (isRooted cs) segments) = some d
          rw [walk_cons, hlinkless.empty e]
          exact hsettle
        · exact hsettle

theorem reaches_name (hcs : '/' ∉ cs) :
    Reaches enter start cs d name ↔ cs = name ∧ start (isRooted cs) = some d := by
  rw [Reaches, List.splitOn_eq_singleton hcs]
  constructor
  · rintro ⟨segments, e, hsegments, hstart, hwalk⟩
    obtain ⟨rfl, hname⟩ := List.append_singleton_inj.mp ((List.nil_append [cs]).trans hsegments)
    obtain rfl : e = d := Option.some.inj hwalk
    exact ⟨hname, hstart⟩
  · rintro ⟨rfl, hstart⟩
    exact ⟨[], d, rfl, hstart, rfl⟩

theorem reaches_parent {parent last : List Char} (hlast : '/' ∉ last) :
    Reaches enter start (parent ++ '/' :: last) d name ↔
      last = name ∧ ∃ e, start (isRooted (parent ++ '/' :: last)) = some e ∧
        walk enter e (parent.splitOn '/') = some d := by
  rw [Reaches, List.splitOn_append_cons_self, List.splitOn_eq_singleton hlast]
  constructor
  · rintro ⟨segments, e, hsegments, hstart, hwalk⟩
    obtain ⟨rfl, hname⟩ := List.append_singleton_inj.mp hsegments
    exact ⟨hname, e, hstart, hwalk⟩
  · rintro ⟨rfl, e, hstart, hwalk⟩
    exact ⟨parent.splitOn '/', e, rfl, hstart, hwalk⟩

/-- A longer name is reached by a longer path. -/
theorem Reaches.append {suffix : List Char} (h : Reaches enter start cs d name) (hname : name ≠ [])
    (hsuffix : '/' ∉ suffix) : Reaches enter start (cs ++ suffix) d (name ++ suffix) := by
  by_cases hcs : '/' ∈ cs
  · obtain ⟨parent, last, rfl, hlast⟩ := exists_last_slash hcs
    obtain ⟨rfl, e, hstart, hwalk⟩ := (reaches_parent hlast).mp h
    have hlonger : '/' ∉ last ++ suffix := by simp [hlast, hsuffix]
    rw [← isRooted_append (List.ne_nil_of_mem hcs) suffix] at hstart
    rw [List.append_assoc, List.cons_append] at hstart ⊢
    exact (reaches_parent hlonger).mpr ⟨rfl, e, hstart, hwalk⟩
  · obtain ⟨rfl, hstart⟩ := (reaches_name hcs).mp h
    have hlonger : '/' ∉ cs ++ suffix := by simp [hcs, hsuffix]
    rw [← isRooted_append hname suffix] at hstart
    exact (reaches_name hlonger).mpr ⟨rfl, hstart⟩

end Reaches

end StylePrint.UrlPath
