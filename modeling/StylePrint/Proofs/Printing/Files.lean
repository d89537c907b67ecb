import StylePrint.Proofs.Printing.InputMaps
import StylePrint.Proofs.Printing.Sightings
import StylePrint.Proofs.SourceMap.Contents
import StylePrint.Proofs.SourceMap.Tables
/-!
The sources of a tree and their contents, told by its positions alone. `Tracker.filesIn` are the
sources among positions that come with content, each once with the first content that comes with it
(`Tracker.lookup_filesIn`). A tracker that has followed a tree to the end has the sources of its
positions in its table and has remembered these files (`Tracker.files_of_follow`).
-/

namespace StylePrint

open StylePrint.SourceMap StylePrint.Sheet StylePrint.Layout

/-! ### Marks -/

/-- The position that a step marks. -/
def Layout.Step.position? : Step → Option Position
  | .mark position => some position
  | _ => none

/-- Pieces announce the positions that their steps mark. -/
theorem Layout.positions_pieces (unit : String) (level : Nat) (steps : List Step) :
    (announced (pieces unit level steps)).map Prod.fst = steps.filterMap Step.position? := by
  induction steps generalizing level with
  | nil => rfl
  | cons step rest ih =>
      cases step with
      | mark position => exact congrArg (position :: ·) (ih level)
      | text content => exact ih level
      | margin => exact ih level
      | nest => exact ih (level + 1)
      | unnest => exact ih (max (level - 1) 1)

/-- Every layout marks the positions of a tree, in the order of the text. -/
theorem Layout.positions_steps (layout : Layout) (node : Node) :
    (layout.steps node).filterMap Step.position? = node.positions := by
  rw [← positions_pieces "" 1, (heads_layout layout "" node).positions, positions_headings]

namespace Tracker

/-! ### Files among positions -/

/-- The content of a source among positions: that of the first position in the source that comes
with any. -/
def contentIn (positions : List Position) (source : String) : Option String :=
  positions.findSome? fun position =>
    if sourceOf position = source then position.content else none

/-- The sources among positions that come with content, in order of first sight, each with its first
content. -/
def filesIn (positions : List Position) : List (String × String) :=
  (positions.filterMap fun position => position.content.map (sourceOf position, ·)).eraseDupsBy
    fun file earlier => file.1 == earlier.1

/-- Remembers the contents that come with positions. -/
def rememberAll (files : List (String × String)) (positions : List Position) :
    List (String × String) :=
  positions.foldl (fun files position => remember files (sourceOf position) position.content) files

theorem rememberAll_eq (files : List (String × String)) (positions : List Position) :
    rememberAll files positions
      = List.eraseDupsBy.loop (fun file earlier => file.1 == earlier.1)
          (positions.filterMap fun position => position.content.map (sourceOf position, ·))
          files.reverse := by
  induction positions generalizing files with
  | nil => exact (List.reverse_reverse files).symm
  | cons position rest ih =>
      rw [rememberAll, List.foldl_cons, ← rememberAll, ih]
      cases hcontent : position.content with
      | none => simp [remember, hcontent]
      | some content =>
          have hknown : files.reverse.any (fun earlier => sourceOf position == earlier.1)
              = (files.map Prod.fst).contains (sourceOf position) := by
            rw [List.any_reverse, List.contains_eq_any_beq, List.any_map]
            rfl
          rw [List.filterMap_cons_some (by rw [hcontent]; rfl), List.eraseDupsBy.loop, hknown,
            remember]
          cases (files.map Prod.fst).contains (sourceOf position) with
          | true => rfl
          | false => rw [if_neg Bool.false_ne_true, List.reverse_concat]

/-- The files among positions are those remembered along them. -/
theorem filesIn_eq (positions : List Position) : filesIn positions = rememberAll [] positions :=
  (rememberAll_eq [] positions).symm

/-- What is found under a name once a content is remembered. -/
theorem lookup_remember (files : List (String × String)) (source : String)
    (content : Option String) (name : String) :
    (remember files source content).lookup name
      = (files.lookup name).or (if source = name then content else none) := by
  cases content with
  | none => rw [ite_self, Option.or_none, remember]
  | some content =>
      rw [remember]
      by_cases hname : source = name
      · subst hname
        rw [if_pos rfl]
        split
        · rename_i hknown
          rw [List.contains_iff_mem] at hknown
          cases hfound : files.lookup source with
          | none => exact absurd hknown (List.lookup_eq_none_iff_not_mem.mp hfound)
          | some found => rfl
        · rw [List.lookup_append, List.lookup_cons_self]
      · have hne : (name == source) = false := beq_eq_false_iff_ne.mpr (Ne.symm hname)
        rw [if_neg hname]
        split
        · rw [Option.or_none]
        · rw [List.lookup_append, List.lookup_cons, hne]
          rfl

theorem lookup_rememberAll (files : List (String × String)) (positions : List Position)
    (name : String) :
    (rememberAll files positions).lookup name
      = (files.lookup name).or (contentIn positions name) := by
  induction positions generalizing files with
  | nil => exact (Option.or_none).symm
  | cons position rest ih =>
      rw [rememberAll, List.foldl_cons, ← rememberAll, ih, lookup_remember, Option.or_assoc]
      congr 1
      rw [contentIn, contentIn, List.findSome?_cons]
      cases (if sourceOf position = name then position.content else none) with
      | none => rfl
      | some content => rfl

/-- The files among positions hold for each source its first content. -/
theorem lookup_filesIn (positions : List Position) (name : String) :
    (filesIn positions).lookup name = contentIn positions name := by
  rw [filesIn_eq, lookup_rememberAll]
  rfl

theorem nodup_filesIn (positions : List Position) :
    ((filesIn positions).map Prod.fst).Nodup := by
  have along : ∀ (positions : List Position) (files : List (String × String)),
      (files.map Prod.fst).Nodup → ((rememberAll files positions).map Prod.fst).Nodup := by
    intro positions
    induction positions with
    | nil => exact fun files h => h
    | cons position rest ih => exact fun files h => ih _ (nodup_remember h _ _)
  rw [filesIn_eq]
  exact along positions [] .nil

theorem isSome_contentIn_iff {positions : List Position} {source : String} :
    (contentIn positions source).isSome ↔
      ∃ position ∈ positions, sourceOf position = source ∧ position.content.isSome := by
  rw [contentIn, List.findSome?_isSome_iff]
  apply exists_congr
  intro position
  apply and_congr_right
  intro _
  split
  · rename_i hsource
    exact (and_iff_right hsource).symm
  · rename_i hsource
    exact (iff_of_false Bool.false_ne_true fun h => hsource h.1)

/-! ### Trackers -/

variable {options : Options} {layout : Layout} {unit : String} {node : Node} {t : Tracker}

/-- A new tracker that has followed a tree to the end has remembered the files among its
positions. -/
theorem files_of_follow
    (h : (start options).follow (pieces unit 1 (layout.steps node)) = .ok t) :
    t.files = filesIn node.positions := by
  have hfiles : t.files = (node.positions.foldl Sightings.see {}).files :=
    congrArg Sightings.files (sightings_of_follow h)
  rw [hfiles, filesIn_eq]
  exact (List.foldl_hom Sightings.files fun _ _ => rfl).symm

/-- A new tracker that has followed a tree to the end has the sources of its positions in its
table. -/
theorem sources_of_follow
    (h : (start options).follow (pieces unit 1 (layout.steps node)) = .ok t) :
    t.draft.sources = (node.positions.map sourceOf).eraseDups := by
  have hsources : t.draft.sources = (node.positions.foldl Sightings.see {}).sources :=
    congrArg Sightings.sources (sightings_of_follow h)
  rw [hsources, ← foldl_addNew_nil, List.foldl_map]
  exact (List.foldl_hom Sightings.sources fun _ _ => rfl).symm

/-- Following pieces attaches no contents. -/
theorem contents_follow {ps : List Piece} {t t' : Tracker} (h : t.follow ps = .ok t') :
    t'.draft.contents = t.draft.contents := by
  refine follow_keeps (P := fun t' => t'.draft.contents = t.draft.contents) ?_ ?_ h rfl
  · intro t content ht
    exact ht
  · intro t position _ _ ht
    exact ht

end Tracker

end StylePrint
