import StylePrint.Json.Record
import StylePrint.Proofs.Json.Tree
/-!
Records in JSON text, read back. The words, texts and lists that records are made of are exact
values, which their readers give back, and optional ones too (`Json.optional_map`). The text of any
value has the value's tree (`Written.parse?_text`).
-/

namespace StylePrint.Json

/-! ### Values of fields -/

@[simp] theorem word?_word (w : UInt32) : (word w).word? = some w := by
  have hlt := w.toNat_lt
  simp only [word, nat, word?]
  rw [if_pos ⟨Int.natCast_nonneg _, by omega⟩, Int.toNat_natCast, UInt32.ofNat_toNat]

/-- A list is read as itself when each of its elements is. -/
theorem mapM_map {α : Type} {read : Json → Option α} {write : α → Json}
    (h : ∀ a, read (write a) = some a) (items : List α) :
    (items.map write).mapM read = some items := by
  induction items with
  | nil => rfl
  | cons item rest ih => rw [List.map_cons, List.mapM_cons, h, ih]; rfl

@[simp] theorem strings?_map (items : List String) :
    (Json.array (items.map Json.string)).strings? = some items := by
  have hread : ∀ item, string? (Json.string item) = some item := fun _ => rfl
  exact mapM_map hread items

@[simp] theorem nullableStrings?_map (items : List (Option String)) :
    (Json.array (items.map Json.orNull)).nullableStrings? = some items :=
  mapM_map (fun item => by cases item <;> rfl) items

/-- An optional value is read as itself when its JSON is never `null`. -/
theorem optional_map {α : Type} {read : Json → Option α} {write : α → Json}
    (hread : ∀ a, read (write a) = some a) (hnull : ∀ a, write a ≠ .null) (value : Option α) :
    optional read (value.map write) = some value := by
  cases value with
  | none => rfl
  | some a =>
      have h := hread a
      have hn := hnull a
      simp only [Option.map_some]
      cases hw : write a <;> simp_all [optional]

/-! ### Exact values -/

theorem exactItems_of_forall {items : List Json} (h : ∀ item ∈ items, item.Exact) :
    ExactItems items := by
  induction items with
  | nil => trivial
  | cons item rest ih =>
      obtain ⟨hitem, hrest⟩ := List.forall_mem_cons.mp h
      exact ⟨hitem, ih hrest⟩

theorem exactMembers_of_forall {members : List (String × Json)}
    (h : ∀ member ∈ members, member.2.Exact) : ExactMembers members := by
  induction members with
  | nil => trivial
  | cons member rest ih =>
      obtain ⟨hmember, hrest⟩ := List.forall_mem_cons.mp h
      exact ⟨hmember, ih hrest⟩

theorem exactMembers_append {ms ns : List (String × Json)} (hms : ExactMembers ms)
    (hns : ExactMembers ns) : ExactMembers (ms ++ ns) := by
  induction ms with
  | nil => exact hns
  | cons m ms ih => exact ⟨hms.1, ih hms.2⟩

theorem exact_string (s : String) : (Json.string s).Exact := trivial

theorem exact_word (w : UInt32) : (word w).Exact := by
  have hlt := w.toNat_lt
  show -9223372036854775808 ≤ (w.toNat : Int) ∧ (w.toNat : Int) < 18446744073709551616
  omega

/-- An array is exact when what it lists is written exactly. -/
theorem exact_array_map {α : Type} {write : α → Json} (h : ∀ a, (write a).Exact)
    (items : List α) : (Json.array (items.map write)).Exact := by
  refine exactItems_of_forall ?_
  intro item hitem
  obtain ⟨a, -, rfl⟩ := List.mem_map.mp hitem
  exact h a

theorem exact_orNull (s : Option String) : (orNull s).Exact := by
  cases s <;> trivial

/-! ### Members in order -/

theorem settledItems_eq_map (items : List Json) : settledItems items = items.map settled := by
  induction items with
  | nil => rfl
  | cons item rest ih => rw [settledItems, List.map_cons, ih]

theorem settledItems_eq_self {items : List Json} (h : ∀ item ∈ items, item.settled = item) :
    settledItems items = items := by
  rw [settledItems_eq_map]
  exact (List.map_congr_left h).trans (List.map_id' items)

theorem settledMembers_eq_self {members : List (String × Json)}
    (h : ∀ member ∈ members, member.2.settled = member.2) : settledMembers members = members := by
  induction members with
  | nil => rfl
  | cons member rest ih =>
      obtain ⟨hmember, hrest⟩ := List.forall_mem_cons.mp h
      rw [settledMembers, hmember, ih hrest]

/-- An array is in order when what it lists is. -/
theorem settled_array_map {α : Type} {write : α → Json} (h : ∀ a, (write a).settled = write a)
    (items : List α) : (Json.array (items.map write)).settled = .array (items.map write) := by
  refine congrArg Json.array (settledItems_eq_self ?_)
  intro item hitem
  obtain ⟨a, -, rfl⟩ := List.mem_map.mp hitem
  exact h a

theorem settled_orNull (s : Option String) : (orNull s).settled = orNull s := by
  cases s <;> rfl

/-! ### Trees -/

namespace Written

/-- The text of a value has the tree of the value. -/
theorem parse?_text (j : Json) : parse? j.text = some j.written := by
  rw [parse?, text, String.toList_ofList, scan?_chars, Option.bind_some, ofTokens?_tokens]

end Written

end StylePrint.Json
