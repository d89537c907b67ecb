import Mathlib.Data.List.Basic
/-!
Lookups in lists, where the first hit counts: the place of an element, and the entry under a key.
-/

namespace List

/-- Other values leave the keys as they are. -/
theorem keys_map_snd {α β γ : Type} (f : β → γ) (entries : List (α × β)) :
    (entries.map fun entry => (entry.1, f entry.2)).map Prod.fst = entries.map Prod.fst := by
  rw [map_map]
  rfl

theorem lookup_map_snd {α β γ : Type} [BEq α] (f : β → γ) (entries : List (α × β)) (key : α) :
    (entries.map fun entry => (entry.1, f entry.2)).lookup key = (entries.lookup key).map f := by
  induction entries with
  | nil => rfl
  | cons entry rest ih =>
      obtain ⟨name, value⟩ := entry
      rw [map_cons, lookup_cons, lookup_cons, ih]
      cases key == name <;> rfl

variable {α β : Type} [BEq α] [LawfulBEq α] {entries : List (α × β)} {key : α}

/-- No entry has a key when every entry has another one. -/
theorem forall_bne_iff_not_mem :
    (∀ entry ∈ entries, (key != entry.1) = true) ↔ key ∉ entries.map Prod.fst := by
  rw [mem_map]
  constructor
  · rintro h ⟨entry, hentry, rfl⟩
    exact absurd (h entry hentry) (by simp)
  · intro h entry hentry
    rw [bne_iff_ne]
    rintro rfl
    exact h ⟨entry, hentry, rfl⟩

/-- Nothing is found under a key exactly when no entry has it. -/
theorem lookup_eq_none_iff_not_mem : entries.lookup key = none ↔ key ∉ entries.map Prod.fst :=
  lookup_eq_none_iff.trans forall_bne_iff_not_mem

/-- What is found under a key an entry has. -/
theorem mem_keys_of_lookup {value : β} (h : entries.lookup key = some value) :
    key ∈ entries.map Prod.fst := by
  by_contra hkey
  rw [lookup_eq_none_iff_not_mem.mpr hkey] at h
  cases h

/-- Among entries under keys of their own, the one that has the key is found. -/
theorem lookup_eq_some_iff_mem (h : (entries.map Prod.fst).Nodup) {value : β} :
    entries.lookup key = some value ↔ (key, value) ∈ entries := by
  induction entries with
  | nil => exact ⟨nofun, nofun⟩
  | cons entry rest ih =>
      obtain ⟨name, old⟩ := entry
      obtain ⟨hname, hrest⟩ := nodup_cons.mp h
      by_cases hkey : key = name
      · subst hkey
        have hfresh : (key, value) ∉ rest := fun hmem => hname (mem_map.mpr ⟨_, hmem, rfl⟩)
        simp [hfresh, eq_comm]
      · have hne : (key == name) = false := beq_eq_false_iff_ne.mpr hkey
        rw [lookup_cons, hne]
        simp [hkey, ih hrest]

/-- In another order, entries under keys of their own are found as before. -/
theorem lookup_eq_of_perm {others : List (α × β)} (h : (entries.map Prod.fst).Nodup)
    (hperm : entries.Perm others) : others.lookup key = entries.lookup key := by
  have hothers : (others.map Prod.fst).Nodup := (hperm.map Prod.fst).nodup h
  refine Option.ext fun value => ?_
  rw [lookup_eq_some_iff_mem hothers, lookup_eq_some_iff_mem h, hperm.mem_iff]

theorem lookup_cons_of_ne {name : α} (h : key ≠ name) (value : β) :
    lookup key ((name, value) :: entries) = entries.lookup key := by
  rw [lookup_cons, beq_eq_false_iff_ne.mpr h]

/-- Behind entries under other keys an entry is found. -/
theorem lookup_append_cons_self (h : key ∉ entries.map Prod.fst) (value : β)
    (rest : List (α × β)) : (entries ++ (key, value) :: rest).lookup key = some value := by
  rw [lookup_append, lookup_eq_none_iff_not_mem.mpr h, lookup_cons_self, Option.none_or]

/-- An entry under another key does not tell what is found. -/
theorem lookup_append_cons_of_ne {name : α} (h : key ≠ name) (value : β) (rest : List (α × β)) :
    (entries ++ (name, value) :: rest).lookup key = (entries ++ rest).lookup key := by
  rw [lookup_append, lookup_cons_of_ne h, lookup_append]

/-- Without the entries under one key, the same is found under every other. -/
theorem lookup_filter_of_ne [DecidableEq α] {other : α} (h : other ≠ key) :
    (entries.filter fun entry => entry.1 ≠ key).lookup other = entries.lookup other := by
  induction entries with
  | nil => rfl
  | cons entry rest ih =>
      obtain ⟨name, value⟩ := entry
      by_cases hname : name = key
      · subst hname
        have hne : (other == name) = false := beq_eq_false_iff_ne.mpr h
        rw [filter_cons_of_neg (by simp), ih, lookup_cons, hne]
      · rw [filter_cons_of_pos (by simpa using hname), lookup_cons, lookup_cons, ih]

/-- The index of an element is that of the first place where it stands. -/
theorem idxOf?_eq_some_iff_getElem? {xs : List α} {x : α} {i : Nat} :
    xs.idxOf? x = some i ↔ xs[i]? = some x ∧ ∀ j < i, xs[j]? ≠ some x := by
  rw [idxOf?_eq_some_iff]
  constructor
  · rintro ⟨hi, rfl, hbefore⟩
    refine ⟨getElem?_eq_getElem hi, ?_⟩
    intro j hj hat
    obtain ⟨_, heq⟩ := getElem?_eq_some_iff.mp hat
    exact hbefore j hj heq
  · rintro ⟨hat, hbefore⟩
    obtain ⟨hi, heq⟩ := getElem?_eq_some_iff.mp hat
    refine ⟨hi, heq, ?_⟩
    intro j hj hother
    exact hbefore j hj (getElem?_eq_some_iff.mpr ⟨Nat.lt_trans hj hi, hother⟩)

end List
