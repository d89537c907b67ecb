import Mathlib.Data.List.Sort
import Mathlib.Data.String.Basic
import StylePrint.Json.Basic
import StylePrint.Proofs.Lookup
/-!
Members in ascending order of name. Adding members one by one keeps the order, so the members of a
value that was read from text are in order (`Json.ascending_sortMembers`), and members that are in
order stay as they are (`Json.sortMembers_of_ascending`): there is one order for the same members
(`Json.eq_of_ascending`).
-/

namespace StylePrint.Json

/-! ### Lookups -/

/-- A member is found after it was added, and no other is lost. -/
theorem lookup_insertMember (name other : String) (value : Json) (members : List (String × Json)) :
    (insertMember name value members).lookup other
      = if other = name then some value else members.lookup other := by
  induction members with
  | nil =>
      by_cases h : other = name
      · simp [insertMember, h]
      · simp [insertMember, h, List.lookup_cons, beq_eq_false_iff_ne.mpr h]
  | cons member rest ih =>
      obtain ⟨key, old⟩ := member
      rw [insertMember]
      by_cases hkey : name = key
      · subst hkey
        rw [if_pos rfl, List.lookup_cons, List.lookup_cons]
        by_cases h : other = name
        · simp [h]
        · simp [h, beq_eq_false_iff_ne.mpr h]
      · rw [if_neg hkey]
        split
        · by_cases h : other = name
          · simp [h]
          · simp [h, List.lookup_cons, beq_eq_false_iff_ne.mpr h]
        · rw [List.lookup_cons, List.lookup_cons, ih]
          by_cases h : other = name
          · have hother : other ≠ key := h ▸ hkey
            simp [h, beq_eq_false_iff_ne.mpr hkey]
          · simp [h]

/-- Members of different names are all found when they are in order. -/
theorem lookup_sortMembers {members : List (String × Json)} (h : (members.map Prod.fst).Nodup)
    (name : String) : (sortMembers members).lookup name = members.lookup name := by
  have sorted : ∀ before : List (String × Json),
      (members.foldl (fun sorted member => insertMember member.1 member.2 sorted) before).lookup
        name = (members.lookup name).or (before.lookup name) := by
    induction members with
    | nil => exact fun before => rfl
    | cons member rest ih =>
        intro before
        obtain ⟨key, value⟩ := member
        obtain ⟨hkey, hrest⟩ := List.nodup_cons.mp h
        rw [List.foldl_cons, ih hrest, lookup_insertMember, List.lookup_cons]
        by_cases hname : name = key
        · subst hname
          simp [List.lookup_eq_none_iff_not_mem.mpr hkey]
        · simp [hname, beq_eq_false_iff_ne.mpr hname]
  rw [sortMembers, sorted, List.lookup_nil, Option.or_none]

/-! ### Order -/

/-- Whether members are in ascending order of name, each name once. -/
def Ascending (members : List (String × Json)) : Prop :=
  members.Pairwise fun member other => member.1 < other.1

instance (members : List (String × Json)) : Decidable (Ascending members) :=
  inferInstanceAs (Decidable (members.Pairwise fun member other => member.1 < other.1))

variable {members others : List (String × Json)}

theorem Ascending.nodup (h : Ascending members) : (members.map Prod.fst).Nodup :=
  List.pairwise_map.mpr (h.imp ne_of_lt)

theorem Ascending.filter (h : Ascending members) (p : String × Json → Bool) :
    Ascending (members.filter p) :=
  List.Pairwise.filter p h

/-- Members have one ascending order. -/
theorem eq_of_ascending (h : Ascending members) (hothers : Ascending others)
    (hmem : ∀ member, member ∈ members ↔ member ∈ others) : members = others := by
  have : Std.Irrefl fun member other : String × Json => member.1 < other.1 :=
    ⟨fun member => lt_irrefl member.1⟩
  have : Std.Antisymm fun member other : String × Json => member.1 < other.1 :=
    ⟨fun _ _ hlt hgt => absurd hgt (lt_asymm hlt)⟩
  exact List.Pairwise.eq_of_mem_iff h hothers hmem

theorem mem_insertMember {name : String} {value : Json} {member : String × Json}
    (h : member ∈ insertMember name value members) : member = (name, value) ∨ member ∈ members := by
  induction members with
  | nil => exact .inl (List.mem_singleton.mp h)
  | cons first rest ih =>
      obtain ⟨other, old⟩ := first
      rw [insertMember] at h
      split at h
      · exact (List.mem_cons.mp h).imp_right (List.mem_cons_of_mem _)
      · split at h
        · exact List.mem_cons.mp h
        · rcases List.mem_cons.mp h with rfl | hrest
          · exact .inr List.mem_cons_self
          · exact (ih hrest).imp_right (List.mem_cons_of_mem _)

theorem ascending_insertMember (h : Ascending members) (name : String) (value : Json) :
    Ascending (insertMember name value members) := by
  induction members with
  | nil => exact List.pairwise_singleton _ _
  | cons first rest ih =>
      obtain ⟨other, old⟩ := first
      obtain ⟨hfirst, hrest⟩ := List.pairwise_cons.mp h
      rw [insertMember]
      split
      case isTrue heq =>
        subst heq
        exact List.pairwise_cons.mpr ⟨hfirst, hrest⟩
      case isFalse hne =>
        split
        case isTrue hlt =>
          refine List.pairwise_cons.mpr ⟨?_, h⟩
          intro member hmember
          rcases List.mem_cons.mp hmember with rfl | hmember
          · exact hlt
          · exact lt_trans hlt (hfirst member hmember)
        case isFalse hge =>
          refine List.pairwise_cons.mpr ⟨?_, ih hrest⟩
          intro member hmember
          rcases mem_insertMember hmember with rfl | hmember
          · exact lt_of_le_of_ne (not_lt.mp hge) (Ne.symm hne)
          · exact hfirst member hmember

/-- Members of different names may be added in either order. -/
theorem insertMember_comm {name other : String} (h : name ≠ other) (value otherValue : Json)
    (members : List (String × Json)) :
    insertMember name value (insertMember other otherValue members)
      = insertMember other otherValue (insertMember name value members) := by
  induction members with
  | nil => grind [insertMember]
  | cons member rest ih => grind [insertMember]

/-- Members that are put in order are in order, whatever order they come from. -/
theorem ascending_sortMembers (members : List (String × Json)) :
    Ascending (sortMembers members) := by
  have sorted : ∀ before : List (String × Json), Ascending before → Ascending
      (members.foldl (fun sorted member => insertMember member.1 member.2 sorted) before) := by
    induction members with
    | nil => exact fun before h => h
    | cons member rest ih => exact fun before h => ih _ (ascending_insertMember h _ _)
  exact sorted [] List.Pairwise.nil

/-- Putting members in order adds none. -/
theorem mem_of_mem_sortMembers {member : String × Json} (h : member ∈ sortMembers members) :
    member ∈ members := by
  have sorted : ∀ before : List (String × Json),
      member ∈ members.foldl (fun sorted member => insertMember member.1 member.2 sorted) before →
        member ∈ members ∨ member ∈ before := by
    clear h
    induction members with
    | nil => exact fun before h => .inr h
    | cons first rest ih =>
        intro before h
        rcases ih _ h with hrest | hbefore
        · exact .inl (List.mem_cons_of_mem _ hrest)
        · rcases mem_insertMember hbefore with rfl | hbefore
          · exact .inl List.mem_cons_self
          · exact .inr hbefore
  exact (sorted [] h).resolve_right List.not_mem_nil

/-- Members of different names are all kept when they are put in order. -/
theorem mem_sortMembers (h : (members.map Prod.fst).Nodup) {member : String × Json} :
    member ∈ sortMembers members ↔ member ∈ members := by
  obtain ⟨name, value⟩ := member
  rw [← List.lookup_eq_some_iff_mem (ascending_sortMembers members).nodup, lookup_sortMembers h,
    List.lookup_eq_some_iff_mem h]

/-- Putting members of different names in order only changes their order. -/
theorem sortMembers_perm (h : (members.map Prod.fst).Nodup) :
    (sortMembers members).Perm members :=
  (List.perm_ext_iff_of_nodup (ascending_sortMembers members).nodup.of_map h.of_map).mpr
    fun _ => mem_sortMembers h

/-- **Members in order stay as they are.** -/
theorem sortMembers_of_ascending (h : Ascending members) : sortMembers members = members :=
  eq_of_ascending (ascending_sortMembers members) h fun _ => mem_sortMembers h.nodup

end StylePrint.Json
