import Mathlib.Logic.Relation
import StylePrint.Proofs.Json.Record
import StylePrint.Proofs.Lookup
/-!
Records spelled in another way. Some fields of a record may be left out (`Presence`), and a record
may have members that its reader passes over. So one record has many spellings (`Respelled`), and
each of them holds the same in every field (`Respelled.fill_lookup`).
-/

namespace StylePrint.Json

/-- Whether a field may be left out. -/
inductive Presence (α : Type) where
  | required
  /-- The field may be missing or `null`. -/
  | optional
  /-- The field may be missing but not `null`, and stands for a value when it is. -/
  | defaulted (default : α)

namespace Presence

variable {α β : Type}

/-- What a field holds when it is written out; `null` is what stands for nothing. -/
def fill (null : α) : Presence α → Option α → Option α
  | .required, value => value
  | .optional, value => some (value.getD null)
  | .defaulted default, value => some (value.getD default)

/-- The same field with its values in another form. -/
def map (f : α → β) : Presence α → Presence β
  | .required => .required
  | .optional => .optional
  | .defaulted default => .defaulted (f default)

/-- A field that is there holds what is written. -/
@[simp] theorem fill_some (null value : α) (presence : Presence α) :
    presence.fill null (some value) = some value := by
  cases presence <;> rfl

theorem fill_map (f : α → β) (null : α) (presence : Presence α) (value : Option α) :
    (presence.map f).fill (f null) (value.map f) = (presence.fill null value).map f := by
  cases presence <;> cases value <;> rfl

end Presence

/-! ### Spellings -/

section

variable {α β : Type} (null : α) (presence : String → Option (Presence α))

/-- Another spelling of a record's members: in another order, with a member more that is no field,
with a field that stands for nothing and was left out, or without one that holds its default. -/
inductive Respelled : List (String × α) → List (String × α) → Prop where
  | moved {members others : List (String × α)} (hnodup : (members.map Prod.fst).Nodup)
      (hperm : members.Perm others) : Respelled members others
  | added (before after : List (String × α)) {name : String} (value : α)
      (hfield : presence name = none) (hname : name ∉ (before ++ after).map Prod.fst) :
      Respelled (before ++ after) (before ++ (name, value) :: after)
  | nulled (before after : List (String × α)) {name : String}
      (hfield : presence name = some .optional) (hname : name ∉ (before ++ after).map Prod.fst) :
      Respelled (before ++ after) (before ++ (name, null) :: after)
  | dropped (before after : List (String × α)) {name : String} {default : α}
      (hfield : presence name = some (.defaulted default))
      (hname : name ∉ (before ++ after).map Prod.fst) :
      Respelled (before ++ (name, default) :: after) (before ++ after)

namespace Respelled

variable {null presence} {members others : List (String × α)}

/-- **A record holds the same in every spelling**, whatever the field. -/
theorem fill_lookup (h : Respelled null presence members others) {name : String}
    {field : Presence α} (hfield : presence name = some field) :
    field.fill null (others.lookup name) = field.fill null (members.lookup name) := by
  cases h with
  | moved hnodup hperm => rw [List.lookup_eq_of_perm hnodup hperm]
  | @added before after other _ hother hname =>
      have hne : name ≠ other := by
        rintro rfl
        rw [hother] at hfield
        cases hfield
      rw [List.lookup_append_cons_of_ne hne]
  | @nulled before after other hother hname =>
      by_cases hne : name = other
      · subst hne
        obtain rfl : .optional = field := Option.some.inj (hother.symm.trans hfield)
        have hbefore : name ∉ before.map Prod.fst := fun hmem => hname (by simp [hmem])
        rw [List.lookup_append_cons_self hbefore, List.lookup_eq_none_iff_not_mem.mpr hname]
        rfl
      · rw [List.lookup_append_cons_of_ne hne]
  | @dropped before after other default hother hname =>
      by_cases hne : name = other
      · subst hne
        obtain rfl : .defaulted default = field := Option.some.inj (hother.symm.trans hfield)
        have hbefore : name ∉ before.map Prod.fst := fun hmem => hname (by simp [hmem])
        rw [List.lookup_append_cons_self hbefore, List.lookup_eq_none_iff_not_mem.mpr hname]
        rfl
      · rw [List.lookup_append_cons_of_ne hne]

theorem names_append_cons (before after : List (String × α)) (name : String) (value : α) :
    ((before ++ (name, value) :: after).map Prod.fst).Perm
      (name :: (before ++ after).map Prod.fst) :=
  List.perm_middle.map Prod.fst

/-- Members under names of their own stay so. -/
theorem nodup (h : Respelled null presence members others)
    (hmembers : (members.map Prod.fst).Nodup) : (others.map Prod.fst).Nodup := by
  cases h with
  | moved _ hperm => exact (hperm.map Prod.fst).nodup hmembers
  | added _ _ _ _ hname =>
      exact (names_append_cons ..).nodup_iff.mpr (List.nodup_cons.mpr ⟨hname, hmembers⟩)
  | nulled _ _ _ hname =>
      exact (names_append_cons ..).nodup_iff.mpr (List.nodup_cons.mpr ⟨hname, hmembers⟩)
  | dropped => exact (List.nodup_cons.mp ((names_append_cons ..).nodup_iff.mp hmembers)).2

/-- A spelling is one in every form of the values. -/
theorem map (f : α → β) (h : Respelled null presence members others) :
    Respelled (f null) (fun name => (presence name).map (Presence.map f))
      (members.map fun member => (member.1, f member.2))
      (others.map fun member => (member.1, f member.2)) := by
  cases h with
  | moved hnodup hperm => exact .moved (by rwa [List.keys_map_snd]) (hperm.map _)
  | added before after value hfield hname =>
      simp only [List.map_append, List.map_cons]
      refine .added _ _ (f value) (by rw [hfield]; rfl) ?_
      rwa [← List.map_append, List.keys_map_snd]
  | nulled before after hfield hname =>
      simp only [List.map_append, List.map_cons]
      refine .nulled _ _ (by rw [hfield]; rfl) ?_
      rwa [← List.map_append, List.keys_map_snd]
  | dropped before after hfield hname =>
      simp only [List.map_append, List.map_cons]
      refine .dropped _ _ (by rw [hfield]; rfl) ?_
      rwa [← List.map_append, List.keys_map_snd]

end Respelled

end

/-! ### Reading a field -/

section

variable {α : Type} {read : Json → Option α}

/-- A field that may be missing or `null` is read as if it were written out. -/
theorem optional_fill (value : Option Json) :
    optional read (Presence.optional.fill .null value) = optional read value := by
  cases value <;> rfl

theorem optional_some {j : Json} (h : j ≠ .null) :
    optional read (some j) = (read j).map some := by
  cases j <;> first | rfl | exact absurd rfl h

/-- A field that may be missing is read as if its default were written out. -/
theorem defaulted_eq_getD {default : Json} {a : α} (hdefault : read default = some a)
    (value : Option Json) : defaulted read a value = read (value.getD default) := by
  cases value with
  | none => exact hdefault.symm
  | some j => rfl

end

/-! ### Trees of records -/

/-- A value is plain when the tree of its text has just this value. -/
def Plain (j : Json) : Prop :=
  j.written.value? = some j

theorem plain_of_settled {j : Json} (h : j.Exact) (hsettled : j.settled = j) : j.Plain :=
  (value?_written j h).trans (congrArg some hsettled)

/-- A field holds the same value when it holds the same tree. -/
theorem fill_value? {presence : Presence Json} {tree : Option Written} {value : Option Json}
    (hdefault : ∀ default, presence = .defaulted default → default.Plain)
    (hplain : ∀ j, presence.fill .null value = some j → j.Plain)
    (htree : (presence.map written).fill .null tree = (presence.fill .null value).map written) :
    presence.fill .null (tree.bind Written.value?) = presence.fill .null value ∧
      ∀ t, tree = some t → t.value?.isSome := by
  cases tree with
  | some t =>
      rw [Presence.fill_some] at htree
      obtain ⟨j, hfill, rfl⟩ := Option.map_eq_some_iff.mp htree.symm
      have hvalue : j.written.value? = some j := hplain j hfill
      rw [Option.bind_some, hvalue, Presence.fill_some, hfill]
      exact ⟨rfl, fun t ht => Option.isSome_iff_exists.mpr ⟨j, Option.some.inj ht ▸ hvalue⟩⟩
  | none =>
      refine ⟨?_, nofun⟩
      rw [Option.bind_none]
      cases presence with
      | required => exact (Option.map_eq_none_iff.mp htree.symm).symm
      | optional =>
          have hvalue : (value.getD .null).written.value? = some (value.getD .null) :=
            hplain _ rfl
          rw [← Option.some.inj htree] at hvalue
          exact hvalue
      | defaulted default =>
          have hvalue : (value.getD default).written.value? = some (value.getD default) :=
            hplain _ rfl
          rw [← Option.some.inj htree] at hvalue
          exact (hdefault default rfl).symm.trans hvalue

namespace Written

/-- Members of a tree, each with a name. -/
def named (members : List (String × Written)) : Written :=
  .object (members.map fun member => (some member.1, member.2))

theorem written_object (members : List (String × Json)) :
    (Json.object members).written
      = named (members.map fun member => (member.1, member.2.written)) := by
  rw [written, named]
  congr 1
  induction members with
  | nil => rfl
  | cons member rest ih => simp [writtenMembers, ih]

theorem mapM_named (members : List (String × Written)) :
    (members.map fun member => (some member.1, member.2)).mapM
      (fun (name, tree) => name.map (·, tree)) = some members := by
  induction members with
  | nil => rfl
  | cons member rest ih => simp [List.mapM_cons, ih]

theorem mapM_value? {members : List (String × Written)}
    (h : ∀ member ∈ members, (member.2.value?).isSome) :
    ∃ values, members.mapM (fun (name, tree) => tree.value?.map (name, ·)) = some values ∧
      ∀ name, values.lookup name = (members.lookup name).bind value? := by
  induction members with
  | nil => exact ⟨[], rfl, fun _ => rfl⟩
  | cons member rest ih =>
      obtain ⟨name, tree⟩ := member
      obtain ⟨htree, hrest⟩ := List.forall_mem_cons.mp h
      obtain ⟨value, hvalue⟩ := Option.isSome_iff_exists.mp htree
      obtain ⟨values, hvalues, hlookup⟩ := ih hrest
      refine ⟨(name, value) :: values, ?_, ?_⟩
      · simp only at hvalue
        simp [List.mapM_cons, hvalue, hvalues]
      · intro other
        by_cases hother : other = name
        · subst hother
          rw [List.lookup_cons_self, List.lookup_cons_self, Option.bind_some]
          exact hvalue.symm
        · rw [List.lookup_cons_of_ne hother, List.lookup_cons_of_ne hother, hlookup]

/-- **A record is read field by field** when its members have names of their own and each field
that is there has a value. -/
theorem record?_named {names : List String} {members : List (String × Written)}
    (hnodup : (members.map Prod.fst).Nodup)
    (hvalue : ∀ name ∈ names, ∀ tree, members.lookup name = some tree → tree.value?.isSome) :
    ∃ values, record? names (named members) = some (.object values) ∧
      ∀ name ∈ names, values.lookup name = (members.lookup name).bind value? := by
  have hknown : ((members.filter fun member => names.contains member.1).map Prod.fst).Nodup :=
    (List.filter_sublist.map Prod.fst).nodup hnodup
  have hlookup : ∀ name ∈ names, (members.filter fun member => names.contains member.1).lookup name
      = members.lookup name := by
    intro name hname
    refine Option.ext fun tree => ?_
    rw [List.lookup_eq_some_iff_mem hknown, List.lookup_eq_some_iff_mem hnodup, List.mem_filter]
    exact and_iff_left (List.contains_iff_mem.mpr hname)
  have hvalued : ∀ member ∈ members.filter fun member => names.contains member.1,
      (member.2.value?).isSome := by
    intro member hmember
    obtain ⟨hmem, hname⟩ := List.mem_filter.mp hmember
    exact hvalue member.1 (List.contains_iff_mem.mp hname) member.2
      ((List.lookup_eq_some_iff_mem hnodup).mpr hmem)
  obtain ⟨values, hvalues, hfound⟩ := mapM_value? hvalued
  refine ⟨values, ?_, ?_⟩
  · rw [named, record?, mapM_named]
    simp only [Option.bind_eq_bind, Option.bind_some]
    rw [if_pos hknown, hvalues]
    rfl
  · intro name hname
    rw [hfound, hlookup name hname]

end Written

end StylePrint.Json
