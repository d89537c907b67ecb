import StylePrint.Proofs.Json.Ascending
import StylePrint.Proofs.Json.Record
/-!
What the reader of JSON texts gives. The members of every object are in ascending order of name,
brackets nest no deeper than the reader goes, and without floating-point numbers the value is exact
(`Json.Sound`, `Json.parse?_object`).
-/

namespace StylePrint.Json

/-! ### Views of a value -/

mutual

/-- Whether no number in a value is a floating-point number. -/
def FloatFree : Json → Prop
  | .number (.float _) => False
  | .array items => FloatFreeItems items
  | .object members => FloatFreeMembers members
  | .null | .bool _ | .number (.integer _) | .string _ => True

/-- Whether no number in items is a floating-point number. -/
def FloatFreeItems : List Json → Prop
  | [] => True
  | item :: rest => item.FloatFree ∧ FloatFreeItems rest

/-- Whether no number in members is a floating-point number. -/
def FloatFreeMembers : List (String × Json) → Prop
  | [] => True
  | (_, value) :: rest => value.FloatFree ∧ FloatFreeMembers rest

end

theorem floatFree_of_mem_items {items : List Json} (h : FloatFreeItems items) {item : Json}
    (hitem : item ∈ items) : item.FloatFree := by
  induction items with
  | nil => cases hitem
  | cons first rest ih =>
      rcases List.mem_cons.mp hitem with rfl | hrest
      · exact h.1
      · exact ih h.2 hrest

theorem floatFree_of_mem_members {members : List (String × Json)} (h : FloatFreeMembers members)
    {member : String × Json} (hmember : member ∈ members) : member.2.FloatFree := by
  induction members with
  | nil => cases hmember
  | cons first rest ih =>
      rcases List.mem_cons.mp hmember with rfl | hrest
      · exact h.1
      · exact ih h.2 hrest

theorem depthOfItems_le {items : List Json} {bound : Nat} :
    depthOfItems items ≤ bound ↔ ∀ item ∈ items, item.depth ≤ bound := by
  induction items with
  | nil => simp [depthOfItems]
  | cons item rest ih => rw [depthOfItems, max_le_iff, ih, List.forall_mem_cons]

theorem depthOfMembers_le {members : List (String × Json)} {bound : Nat} :
    depthOfMembers members ≤ bound ↔ ∀ member ∈ members, member.2.depth ≤ bound := by
  induction members with
  | nil => simp [depthOfMembers]
  | cons member rest ih => rw [depthOfMembers, max_le_iff, ih, List.forall_mem_cons]

/-! ### Nesting -/

namespace Written

mutual

/-- How deep arrays and objects nest in a tree. -/
def depth : Written → Nat
  | .array items => depthOfItems items + 1
  | .object members => depthOfMembers members + 1
  | .null | .bool _ | .number _ | .string _ => 0

/-- How deep arrays and objects nest in items. -/
def depthOfItems : List Written → Nat
  | [] => 0
  | item :: rest => max item.depth (depthOfItems rest)

/-- How deep arrays and objects nest in members. -/
def depthOfMembers : List (Option String × Written) → Nat
  | [] => 0
  | (_, tree) :: rest => max tree.depth (depthOfMembers rest)

end

theorem depthOfItems_le {items : List Written} {bound : Nat} :
    depthOfItems items ≤ bound ↔ ∀ item ∈ items, item.depth ≤ bound := by
  induction items with
  | nil => simp [depthOfItems]
  | cons item rest ih => rw [depthOfItems, max_le_iff, ih, List.forall_mem_cons]

theorem depthOfMembers_le {members : List (Option String × Written)} {bound : Nat} :
    depthOfMembers members ≤ bound ↔ ∀ member ∈ members, member.2.depth ≤ bound := by
  induction members with
  | nil => simp [depthOfMembers]
  | cons member rest ih => rw [depthOfMembers, max_le_iff, ih, List.forall_mem_cons]

/-- The trees in an open container. -/
def Frame.trees : Frame → List Written
  | .array done => done
  | .object done => done.map Prod.snd
  | .member done _ => done.map Prod.snd

/-- Whether open containers, and what is in them, reach no deeper than a bound. -/
def Within (most : Nat) : List Frame → Prop
  | [] => True
  | frame :: rest =>
    rest.length + 1 ≤ most ∧ (∀ tree ∈ frame.trees, rest.length + 1 + tree.depth ≤ most) ∧
      Within most rest

/-- Whether a text in the course of being read has reached a depth, and never went deeper than a
bound. -/
def Progress.Reaches (count : Nat × Nat) : Progress → Prop
  | .reading frames _ => frames.length = count.1 ∧ Within count.2 frames
  | .finished tree => tree.depth ≤ count.2

theorem Within.length_le {most : Nat} {frames : List Frame} (h : Within most frames) :
    frames.length ≤ most := by
  cases frames with
  | nil => exact Nat.zero_le most
  | cons frame rest => exact h.1

theorem Within.mono {most more : Nat} (hle : most ≤ more) {frames : List Frame}
    (h : Within most frames) : Within more frames := by
  induction frames with
  | nil => trivial
  | cons frame rest ih =>
      obtain ⟨hlength, htrees, hrest⟩ := h
      exact ⟨hlength.trans hle, fun tree htree => (htrees tree htree).trans hle, ih hrest⟩

section

variable {d most : Nat} {frames : List Frame} {token : Token} {p : Progress}

end

end Written

/-! ### Values -/

/-- What holds of a value that was read from a tree of some depth. -/
structure Sound (bound : Nat) (j : Json) : Prop where
  settled_eq : j.settled = j
  exact_of_floatFree : j.FloatFree → j.Exact
  depth_le : j.depth ≤ bound

theorem Sound.mono {bound more : Nat} (hle : bound ≤ more) {j : Json} (h : Sound bound j) :
    Sound more j :=
  ⟨h.settled_eq, h.exact_of_floatFree, h.depth_le.trans hle⟩

theorem Numeral.exact_of_integer? {n : Numeral} {value : Int} (h : n.integer? = some value) :
    (Number.integer value).Exact := by
  have hpow : Nat.pow 2 63 = 9223372036854775808 := by norm_num
  have hsize : UInt64.size = 18446744073709551616 := rfl
  unfold integer? at h
  show -9223372036854775808 ≤ value ∧ value < 18446744073709551616
  split at h
  case h_1 =>
    split at h
    · obtain ⟨hrange, hvalue⟩ := Option.ite_none_right_eq_some.mp h
      obtain rfl := Option.some.inj hvalue
      omega
    · obtain ⟨hrange, hvalue⟩ := Option.ite_none_right_eq_some.mp h
      obtain rfl := Option.some.inj hvalue
      omega
  case h_2 => cases h

theorem sound_number {n : Numeral} {number : Number} (h : n.number? = some number) (bound : Nat) :
    Sound bound (.number number) := by
  refine ⟨rfl, ?_, Nat.zero_le _⟩
  intro hfloat
  unfold Numeral.number? at h
  split at h
  case h_1 value hvalue =>
    obtain rfl := Option.some.inj h
    exact Numeral.exact_of_integer? hvalue
  case h_2 =>
    obtain ⟨x, -, rfl⟩ := Option.map_eq_some_iff.mp h
    exact hfloat.elim

theorem sound_array {bound : Nat} {items : List Json} (h : ∀ item ∈ items, Sound bound item) :
    Sound (bound + 1) (.array items) where
  settled_eq := congrArg Json.array (settledItems_eq_self fun item hitem => (h item hitem).settled_eq)
  exact_of_floatFree hfloat := exactItems_of_forall fun item hitem =>
    (h item hitem).exact_of_floatFree (floatFree_of_mem_items hfloat hitem)
  depth_le := Nat.succ_le_succ (depthOfItems_le.mpr fun item hitem => (h item hitem).depth_le)

/-- Putting members in order does not change what holds of their values. -/
theorem sound_sortMembers {bound : Nat} {members : List (String × Json)}
    (h : ∀ member ∈ members, Sound bound member.2) :
    ∀ member ∈ sortMembers members, Sound bound member.2 :=
  fun member hmember => h member (mem_of_mem_sortMembers hmember)

theorem sound_object {bound : Nat} {members : List (String × Json)} (hascending : Ascending members)
    (h : ∀ member ∈ members, Sound bound member.2) : Sound (bound + 1) (.object members) where
  settled_eq := by
    rw [settled, settledMembers_eq_self fun member hmember => (h member hmember).settled_eq,
      sortMembers_of_ascending hascending]
  exact_of_floatFree hfloat := ⟨hascending.nodup, exactMembers_of_forall fun member hmember =>
    (h member hmember).exact_of_floatFree (floatFree_of_mem_members hfloat hmember)⟩
  depth_le := Nat.succ_le_succ (depthOfMembers_le.mpr fun member hmember =>
    (h member hmember).depth_le)

mutual

theorem sound_value? : ∀ (tree : Written) {j : Json}, tree.value? = some j → Sound tree.depth j
  | .null, _, rfl => ⟨rfl, fun _ => trivial, Nat.zero_le _⟩
  | .bool _, _, rfl => ⟨rfl, fun _ => trivial, Nat.zero_le _⟩
  | .number n, _, h => by
      obtain ⟨number, hnumber, rfl⟩ := Option.map_eq_some_iff.mp h
      exact sound_number hnumber _
  | .string s, _, h => by
      obtain ⟨text, -, rfl⟩ := Option.map_eq_some_iff.mp h
      exact ⟨rfl, fun _ => trivial, Nat.zero_le _⟩
  | .array items, _, h => by
      obtain ⟨values, hvalues, rfl⟩ := Option.map_eq_some_iff.mp h
      exact sound_array (sound_itemValues? items hvalues)
  | .object members, _, h => by
      obtain ⟨values, hvalues, rfl⟩ := Option.map_eq_some_iff.mp h
      exact sound_object (ascending_sortMembers values)
        (sound_sortMembers (sound_memberValues? members hvalues))

theorem sound_itemValues? : ∀ (items : List Written) {values : List Json},
    Written.itemValues? items = some values →
      ∀ value ∈ values, Sound (Written.depthOfItems items) value
  | [], _, rfl => nofun
  | item :: rest, _, h => by
      obtain ⟨value, hvalue, h⟩ := Option.bind_eq_some_iff.mp h
      obtain ⟨values, hvalues, h⟩ := Option.bind_eq_some_iff.mp h
      obtain rfl := Option.some.inj h
      refine List.forall_mem_cons.mpr ⟨?_, fun other hother => ?_⟩
      · exact (sound_value? item hvalue).mono (le_max_left _ _)
      · exact (sound_itemValues? rest hvalues other hother).mono (le_max_right _ _)

theorem sound_memberValues? : ∀ (members : List (Option String × Written))
    {values : List (String × Json)}, Written.memberValues? members = some values →
      ∀ member ∈ values, Sound (Written.depthOfMembers members) member.2
  | [], _, rfl => nofun
  | (name, tree) :: rest, _, h => by
      obtain ⟨name, -, h⟩ := Option.bind_eq_some_iff.mp h
      obtain ⟨value, hvalue, h⟩ := Option.bind_eq_some_iff.mp h
      obtain ⟨values, hvalues, h⟩ := Option.bind_eq_some_iff.mp h
      obtain rfl := Option.some.inj h
      refine List.forall_mem_cons.mpr ⟨?_, fun other hother => ?_⟩
      · exact (sound_value? tree hvalue).mono (le_max_left _ _)
      · exact (sound_memberValues? rest hvalues other hother).mono (le_max_right _ _)

end

end StylePrint.Json
