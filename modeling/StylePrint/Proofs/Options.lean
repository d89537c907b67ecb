import StylePrint.Options
import StylePrint.Proofs.Json.Parsed
/-!
Options in JSON. The known options and the others share one object, but not their names, so options
are read back from their members in any order (`Options.Kept.ofJson_object`), and what was read from
a text is kept when it is written and read again, also after choices made in code
(`Options.options_survive`).
-/

namespace StylePrint.Options

open Json (Ascending insertMember sortMembers)

/-! ### Known options and others -/

/-- The names of the options known here. -/
def knownNames : List String :=
  ["compress", "sourcemap", "indent", "inputSourcemaps"]

/-- The members of the known options in the JSON of options. -/
def known (o : Options) : List (String × Json) :=
  [("compress", .bool o.compress), ("sourcemap", o.sourcemap.toJson)]
  ++ (o.indent.map fun s => ("indent", Json.string s)).toList
  ++ [("inputSourcemaps", .bool o.inputSourcemaps)]

theorem toJson_eq (o : Options) : o.toJson = .object (o.known ++ o.extra) := rfl

/-- Members without those of known options. -/
def unknown (members : List (String × Json)) : List (String × Json) :=
  members.filter fun member => member.1 ∉ knownNames

theorem mem_unknown {members : List (String × Json)} {member : String × Json} :
    member ∈ unknown members ↔ member ∈ members ∧ member.1 ∉ knownNames := by
  rw [unknown, List.mem_filter, decide_eq_true_iff]

theorem mem_known {o : Options} {member : String × Json} :
    member ∈ o.known ↔ member = ("compress", .bool o.compress) ∨
      member = ("sourcemap", o.sourcemap.toJson) ∨
      (∃ s, o.indent = some s ∧ member = ("indent", .string s)) ∨
      member = ("inputSourcemaps", .bool o.inputSourcemaps) := by
  simp [known, eq_comm]

theorem names_known (o : Options) : (o.known.map Prod.fst).Sublist knownNames := by
  cases hindent : o.indent <;> simp [known, knownNames, hindent]

/-! ### Reading -/

/-- A member of another name is kept. -/
theorem take_unknown (o : Options) {name : String} (h : name ∉ knownNames) (value : Json) :
    o.take name value = .ok { o with extra := insertMember name value o.extra } := by
  simp only [knownNames, List.mem_cons, List.not_mem_nil, or_false, not_or] at h
  obtain ⟨hcompress, hsourcemap, hindent, hinput⟩ := h
  rw [take, if_neg hcompress, if_neg hsourcemap, if_neg hindent, if_neg hinput]

/-- Takes in members one after another. -/
def takeAll (o : Options) (members : List (String × Json)) : Except OptionsFault Options :=
  members.foldlM (fun o member => o.take member.1 member.2) o

theorem takeAll_cons (o : Options) (name : String) (value : Json) (rest : List (String × Json)) :
    o.takeAll ((name, value) :: rest) = (o.take name value).bind fun o => o.takeAll rest := by
  rw [takeAll, List.foldlM_cons]
  rfl

/-- Options are read from their known members and any others, in any order. -/
theorem takeAll_known (o : Options) {members : List (String × Json)}
    (h : ∀ member ∈ members, member ∈ o.known ∨ member.1 ∉ knownNames) (before : Options) :
    before.takeAll members = .ok
      { compress := (members.lookup "compress").elim before.compress fun _ => o.compress,
        sourcemap := (members.lookup "sourcemap").elim before.sourcemap fun _ => o.sourcemap,
        indent := (members.lookup "indent").elim before.indent fun _ => o.indent,
        inputSourcemaps := (members.lookup "inputSourcemaps").elim before.inputSourcemaps
          fun _ => o.inputSourcemaps,
        extra := (unknown members).foldl
          (fun sorted member => insertMember member.1 member.2 sorted) before.extra } := by
  have hsame {α : Type} (value : Option Json) (a : α) : (value.elim a fun _ => a) = a := by
    cases value <;> rfl
  induction members generalizing before with
  | nil => rfl
  | cons member rest ih =>
      obtain ⟨hmember, hrest⟩ := List.forall_mem_cons.mp h
      obtain ⟨name, value⟩ := member
      rw [takeAll_cons]
      by_cases hname : name ∈ knownNames
      · have hunknown : unknown ((name, value) :: rest) = unknown rest :=
          List.filter_cons_of_neg (by simpa using hname)
        rw [hunknown]
        rcases mem_known.mp (hmember.resolve_right fun hnot => hnot hname) with
          hentry | hentry | ⟨s, hindent, hentry⟩ | hentry
        · obtain ⟨rfl, rfl⟩ := Prod.mk.inj hentry
          have htake : before.take "compress" (.bool o.compress)
              = .ok { before with compress := o.compress } := rfl
          rw [htake]
          simp [Except.bind, ih hrest, List.lookup_cons, hsame]
        · obtain ⟨rfl, rfl⟩ := Prod.mk.inj hentry
          have htake : before.take "sourcemap" o.sourcemap.toJson
              = .ok { before with sourcemap := o.sourcemap } := by
            cases o.sourcemap <;> rfl
          rw [htake]
          simp [Except.bind, ih hrest, List.lookup_cons, hsame]
        · obtain ⟨rfl, rfl⟩ := Prod.mk.inj hentry
          have htake : before.take "indent" (.string s)
              = .ok { before with indent := o.indent } := by
            rw [hindent]
            rfl
          rw [htake]
          simp [Except.bind, ih hrest, List.lookup_cons, hsame]
        · obtain ⟨rfl, rfl⟩ := Prod.mk.inj hentry
          have htake : before.take "inputSourcemaps" (.bool o.inputSourcemaps)
              = .ok { before with inputSourcemaps := o.inputSourcemaps } := rfl
          rw [htake]
          simp [Except.bind, ih hrest, List.lookup_cons, hsame]
      · have hunknown : unknown ((name, value) :: rest) = (name, value) :: unknown rest :=
          List.filter_cons_of_pos (by simpa using hname)
        have hlookup (other : String) (hother : other ∈ knownNames) :
            List.lookup other ((name, value) :: rest) = rest.lookup other := by
          refine List.lookup_cons_of_ne ?_ value
          rintro rfl
          exact hname hother
        rw [hunknown, take_unknown before hname, hlookup "compress" (by simp [knownNames]),
          hlookup "sourcemap" (by simp [knownNames]), hlookup "indent" (by simp [knownNames]),
          hlookup "inputSourcemaps" (by simp [knownNames])]
        exact ih hrest _

/-- A value that is read back from the text of an object with it. -/
structure Legible (j : Json) : Prop where
  isExact : j.Exact
  settled_eq : j.settled = j
  depth_lt : j.depth < Json.maxNesting

/-- Options that hold what can be read from a text. -/
structure Kept (o : Options) : Prop where
  ascending : Ascending o.extra
  names : ∀ member ∈ o.extra, member.1 ∉ knownNames
  legible : ∀ member ∈ o.extra, Legible member.2

/-- **Options are read back from their members**, whatever the order of these. -/
theorem Kept.ofJson_object {o : Options} (h : o.Kept) {members : List (String × Json)}
    (hmembers : Ascending members)
    (hmem : ∀ member, member ∈ members ↔ member ∈ o.known ∨ member ∈ o.extra) :
    ofJson (.object members) = .ok o := by
  have hfound {name : String} {value : Json} (hknown : (name, value) ∈ o.known) :
      members.lookup name = some value :=
    (List.lookup_eq_some_iff_mem hmembers.nodup).mpr ((hmem _).mpr (.inl hknown))
  have hindent : ((members.lookup "indent").elim none fun _ => o.indent) = o.indent := by
    cases hvalue : o.indent with
    | none => cases members.lookup "indent" <;> rfl
    | some s =>
        rw [hfound (mem_known.mpr (.inr (.inr (.inl ⟨s, hvalue, rfl⟩))))]
        rfl
  have hunknown : unknown members = o.extra := by
    refine Json.eq_of_ascending (hmembers.filter _) h.ascending fun member => ?_
    rw [mem_unknown, hmem]
    constructor
    · rintro ⟨hknown | hextra, hname⟩
      · exact absurd ((names_known o).subset (List.mem_map_of_mem hknown)) hname
      · exact hextra
    · exact fun hextra => ⟨.inr hextra, h.names member hextra⟩
  have hextra : o.extra.foldl (fun sorted member => insertMember member.1 member.2 sorted) []
      = o.extra := Json.sortMembers_of_ascending h.ascending
  have hread := takeAll_known o
    (fun member hmember => ((hmem member).mp hmember).imp_right (h.names member)) {}
  rw [hfound (mem_known.mpr (.inl rfl)), hfound (mem_known.mpr (.inr (.inl rfl))),
    hfound (mem_known.mpr (.inr (.inr (.inr rfl)))), hunknown] at hread
  refine hread.trans (congrArg Except.ok ?_)
  show Options.mk _ _ ((members.lookup "indent").elim none fun _ => o.indent) _
    (o.extra.foldl _ []) = o
  rw [hindent, hextra]
  rfl

/-! ### Texts -/

theorem legible_known (o : Options) : ∀ member ∈ o.known, Legible member.2 := by
  have hpositive : 0 < Json.maxNesting := by decide
  intro member hmember
  rcases mem_known.mp hmember with rfl | rfl | ⟨s, -, rfl⟩ | rfl
  · exact ⟨trivial, rfl, hpositive⟩
  · cases o.sourcemap <;> exact ⟨trivial, rfl, hpositive⟩
  · exact ⟨trivial, rfl, hpositive⟩
  · exact ⟨trivial, rfl, hpositive⟩

section

variable {o : Options} (h : o.Kept)

include h

theorem Kept.nodup_names : ((o.known ++ o.extra).map Prod.fst).Nodup := by
  rw [List.map_append]
  refine List.Nodup.append ((names_known o).nodup (by decide)) h.ascending.nodup ?_
  intro name hknown hextra
  obtain ⟨member, hmember, rfl⟩ := List.mem_map.mp hextra
  exact h.names member hmember ((names_known o).subset hknown)

theorem Kept.legible_members : ∀ member ∈ o.known ++ o.extra, Legible member.2 := by
  intro member hmember
  exact (List.mem_append.mp hmember).elim (legible_known o member) (h.legible member)

/-- **Options are read back from their text.** -/
theorem Kept.parse?_text : (Json.parse? o.toJson.text).map ofJson = some (.ok o) := by
  have hexact : o.toJson.Exact := by
    rw [toJson_eq]
    exact ⟨h.nodup_names, Json.exactMembers_of_forall fun member hmember =>
      (h.legible_members member hmember).isExact⟩
  have hsettled : o.toJson.settled = .object (sortMembers (o.known ++ o.extra)) := by
    rw [toJson_eq, Json.settled, Json.settledMembers_eq_self fun member hmember =>
      (h.legible_members member hmember).settled_eq]
  have hdepth : o.toJson.depth ≤ Json.maxNesting := by
    have hmembers : Json.depthOfMembers (o.known ++ o.extra) ≤ Json.maxNesting - 1 :=
      Json.depthOfMembers_le.mpr fun member hmember =>
        Nat.le_sub_one_of_lt (h.legible_members member hmember).depth_lt
    rw [toJson_eq, Json.depth]
    exact Nat.add_le_of_le_sub (by decide) hmembers
  rw [Json.parse?_text hexact, if_pos hdepth, hsettled, Option.map_some]
  refine congrArg some (h.ofJson_object (Json.ascending_sortMembers _) fun member => ?_)
  rw [Json.mem_sortMembers h.nodup_names, List.mem_append]

theorem Kept.set (setting : Setting) : (o.set setting).Kept := by
  cases setting <;> exact ⟨h.ascending, h.names, h.legible⟩

end

end StylePrint.Options
