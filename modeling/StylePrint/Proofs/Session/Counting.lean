import Mathlib.Data.Set.Card
import StylePrint.Proofs.Lookup
import StylePrint.Proofs.Session.History
/-!
How often a session prints. The keys in its memory are those of the trees it has printed with
success, each once (`Session.Tallied`), and no two trees share a key. So the size of the memory
counts different trees, and a tree whose text is in memory is not printed for its text again
(`Session.renders_are_counted`).
-/

namespace StylePrint

open StylePrint.SourceMap StylePrint.Sheet

/-! ### Requests and trees -/

/-- The tree that a request is about, if any. -/
def Request.node? : Request → Option Node
  | .stringify node => node
  | .compile node => some node

/-- The tree that a request is about, if it can be printed: a new printer writes its text, with a
new tracker on it when the request is for a map too. -/
def Request.printable? (options : Options) : Request → Option Node
  | .stringify none => none
  | .stringify (some node) =>
    let printer := Printer.start options
    let printer := if options.wantsMap then printer.attach (Tracker.start options) else printer
    match (printer.print options.layout node).2 with
    | .ok _ => some node
    | .error _ => none
  | .compile node => some node

/-- The trees that requests are about. -/
def passed (requests : List Request) : List Node :=
  requests.filterMap Request.node?

/-- The trees that requests print with success, unless from memory. -/
def rendered (options : Options) (requests : List Request) : List Node :=
  requests.filterMap (Request.printable? options)

/-- How many different trees there are among trees. -/
noncomputable def distinct (nodes : List Node) : Nat :=
  {node | node ∈ nodes}.ncard

/-- Without a map every tree can be printed. -/
theorem printable?_of_not_wantsMap {options : Options} (h : options.wantsMap = false)
    (request : Request) : request.printable? options = request.node? := by
  match request with
  | .compile node => rfl
  | .stringify none => rfl
  | .stringify (some node) =>
      simp only [Request.printable?, h, Bool.false_eq_true, if_false]
      rw [Session.print_start]
      rfl

theorem rendered_of_not_wantsMap {options : Options} (h : options.wantsMap = false)
    (requests : List Request) : rendered options requests = passed requests := by
  rw [rendered, passed, funext (printable?_of_not_wantsMap h)]

/-- With a map a tree can be printed when a new tracker follows its pieces to the end. -/
theorem printable?_stringify {options : Options} (h : options.wantsMap = true) (node : Node) :
    Request.printable? options (.stringify (some node))
      = match (Tracker.start options).follow
          (Layout.pieces options.indentation 1 (options.layout.steps node)) with
        | .error _ => none
        | .ok _ => some node := by
  simp only [Request.printable?, h, if_true]
  cases hfollow : (Tracker.start options).follow
      (Layout.pieces options.indentation 1 (options.layout.steps node)) with
  | error fault =>
      obtain ⟨q, hprint, -⟩ := (Printer.start options).print_refused (Tracker.start options)
        options.layout node hfollow
      rw [hprint]
  | ok t =>
      rw [(Printer.start options).print_tracked (Tracker.start options) options.layout node hfollow]

namespace Session

/-- The session that has served requests, each with the files as they were then. -/
def served (options : Options) (visits : List (Request × Reader)) : Session :=
  visits.foldl (fun s visit => ((s.serve visit.1).value visit.2).1) (start options)

/-! ### Keys in memory -/

/-- The keys in memory. -/
def keys (memory : List (String × String)) : List String := memory.map Prod.fst

theorem mem_keys_remember {memory : List (String × String)} {key code other : String} :
    other ∈ keys (remember memory key code) ↔ other = key ∨ other ∈ keys memory := by
  simp only [keys, remember, List.map_cons, List.mem_cons, List.mem_map, List.mem_filter,
    decide_eq_true_iff]
  constructor
  · rintro (h | ⟨entry, ⟨hentry, -⟩, rfl⟩)
    · exact Or.inl h
    · exact Or.inr ⟨entry, hentry, rfl⟩
  · rintro (h | ⟨entry, hentry, rfl⟩)
    · exact Or.inl h
    · by_cases hkey : entry.1 = key
      · exact Or.inl hkey
      · exact Or.inr ⟨entry, ⟨hentry, hkey⟩, rfl⟩

theorem nodup_keys_remember {memory : List (String × String)} (h : (keys memory).Nodup)
    (key code : String) : (keys (remember memory key code)).Nodup := by
  rw [keys, remember, List.map_cons, List.nodup_cons]
  constructor
  · intro hmem
    obtain ⟨entry, hentry, hkey⟩ := List.mem_map.mp hmem
    exact (decide_eq_true_iff.mp (List.mem_filter.mp hentry).2) hkey
  · exact h.sublist (List.filter_sublist.map Prod.fst)

/-- A new key makes memory one larger. -/
theorem length_remember {memory : List (String × String)} {key : String} (h : key ∉ keys memory)
    (code : String) : (remember memory key code).length = memory.length + 1 := by
  have hall : memory.filter (fun entry => entry.1 ≠ key) = memory := by
    rw [List.filter_eq_self]
    intro entry hentry
    apply decide_eq_true
    rintro rfl
    exact h (List.mem_map_of_mem hentry)
  rw [remember, List.length_cons, hall]

/-! ### Tallies -/

/-- Whether a session has the memory that requests leave: the keys of the trees they print with
success, each once; and without a map nothing else has been printed. -/
structure Tallied (options : Options) (requests : List Request) (s : Session) : Prop where
  faithful : s.Faithful options
  nodup : (keys s.memory).Nodup
  mem_keys : ∀ key, key ∈ keys s.memory ↔ key ∈ (rendered options requests).map Node.key
  renders : options.wantsMap = false → s.renders = s.memory.length

variable {options : Options} {requests : List Request} {s : Session}

theorem tallied_start (options : Options) : (start options).Tallied options [] where
  faithful := faithful_start options
  nodup := List.nodup_nil
  mem_keys := fun _ => Iff.rfl
  renders := fun _ => rfl

/-- A tree's key is in memory when the tree has been printed. -/
theorem Tallied.key_mem_iff (h : s.Tallied options requests) (node : Node) :
    node.key ∈ keys s.memory ↔ node ∈ rendered options requests := by
  rw [h.mem_keys, List.mem_map]
  constructor
  · rintro ⟨other, hother, hkey⟩
    rwa [← Node.key_inj hkey]
  · intro hnode
    exact ⟨node, hnode, rfl⟩

/-- **Memory has one entry for each different tree that has been printed.** -/
theorem Tallied.length_memory (h : s.Tallied options requests) :
    s.memory.length = distinct (rendered options requests) := by
  have himage : {key | key ∈ keys s.memory}
      = Node.key '' {node | node ∈ rendered options requests} :=
    Set.ext fun key => (h.mem_keys key).trans List.mem_map
  have hkeys : {key | key ∈ keys s.memory}.ncard = (keys s.memory).length := by
    classical
    rw [← List.toFinset_card_of_nodup h.nodup, ← Set.ncard_coe_finset, List.coe_toFinset]
  rw [distinct, ← Set.ncard_image_of_injective _ fun _ _ => Node.key_inj, ← himage, hkeys, keys,
    List.length_map]

/-! ### One request -/

theorem mem_rendered_concat {request : Request} {node : Node} :
    node ∈ rendered options (requests ++ [request])
      ↔ request.printable? options = some node ∨ node ∈ rendered options requests := by
  rw [rendered, List.filterMap_append, List.mem_append, or_comm, rendered]
  simp

/-- A request that prints nothing new leaves a tally that is one. -/
theorem Tallied.keep (h : s.Tallied options requests) {request : Request}
    (hold : ∀ node, request.printable? options = some node → node ∈ rendered options requests) :
    s.Tallied options (requests ++ [request]) := by
  refine ⟨h.faithful, h.nodup, ?_, h.renders⟩
  intro key
  rw [h.mem_keys, List.mem_map, List.mem_map]
  constructor
  · rintro ⟨node, hnode, hkey⟩
    exact ⟨node, mem_rendered_concat.mpr (Or.inr hnode), hkey⟩
  · rintro ⟨node, hnode, hkey⟩
    exact ⟨node, (mem_rendered_concat.mp hnode).elim (hold node) id, hkey⟩

/-- Remembering the text of a tree makes the tally one of the request that printed it. -/
theorem Tallied.remember (h : s.Tallied options requests) {request : Request} {node : Node}
    (hnew : request.printable? options = some node) {s' : Session} (hfaithful : s'.Faithful options)
    {code : String} (hmemory : s'.memory = remember s.memory node.key code)
    (hrenders : options.wantsMap = false → s'.renders = s'.memory.length) :
    s'.Tallied options (requests ++ [request]) := by
  refine ⟨hfaithful, ?_, ?_, hrenders⟩
  · rw [hmemory]
    exact nodup_keys_remember h.nodup node.key code
  · intro key
    rw [hmemory, mem_keys_remember, h.mem_keys, List.mem_map, List.mem_map]
    constructor
    · rintro (rfl | ⟨other, hother, hkey⟩)
      · exact ⟨node, mem_rendered_concat.mpr (Or.inl hnew), rfl⟩
      · exact ⟨other, mem_rendered_concat.mpr (Or.inr hother), hkey⟩
    · rintro ⟨other, hother, rfl⟩
      rcases mem_rendered_concat.mp hother with hother | hother
      · rw [hnew] at hother
        obtain rfl := Option.some.inj hother
        exact Or.inl rfl
      · exact Or.inr ⟨other, hother, rfl⟩

/-- The text of a tree is printed unless the tree was printed before. -/
theorem Tallied.compile (h : s.Tallied options requests) {request : Request} {node : Node}
    (hnew : request.printable? options = some node) :
    (s.compile node).1.Tallied options (requests ++ [request]) ∧
      (s.compile node).1.renders
        = s.renders + if node ∈ rendered options requests then 0 else 1 := by
  cases hlookup : s.memory.lookup node.key with
  | some code =>
      have hnode := (h.key_mem_iff node).mp (List.mem_keys_of_lookup hlookup)
      rw [Session.compile, hlookup, if_pos hnode]
      refine ⟨h.keep ?_, rfl⟩
      intro other hother
      rw [hnew] at hother
      exact Option.some.inj hother ▸ hnode
  | none =>
      have hkey : node.key ∉ keys s.memory := List.lookup_eq_none_iff_not_mem.mp hlookup
      have hnode : node ∉ rendered options requests := fun hmem =>
        hkey ((h.key_mem_iff node).mpr hmem)
      obtain ⟨s', heq, hfaithful⟩ := h.faithful.compile_eq node
      have hrender := s.render_untracked h.faithful.untracked node
      rw [Session.compile, hlookup] at heq ⊢
      simp only at heq ⊢
      rw [if_neg hnode]
      rw [hrender] at heq ⊢
      have hs' := (Prod.mk.inj heq).1
      subst hs'
      refine ⟨h.remember hnew hfaithful rfl ?_, rfl⟩
      intro hmap
      exact (congrArg (· + 1) (h.renders hmap)).trans (length_remember hkey _).symm

/-- With a map a tree is always printed. -/
theorem Tallied.printWithMap (h : s.Tallied options requests) (hmap : options.wantsMap = true)
    (node : Node) (reader : Reader) :
    ((s.printWithMap node).value reader).1.Tallied options
        (requests ++ [.stringify (some node)]) ∧
      ((s.printWithMap node).value reader).1.renders = s.renders + 1 := by
  obtain ⟨s', heq, hfaithful, hrenders, hmemory⟩ := h.faithful.printWithMap_eq node
  have hnever : options.wantsMap = false → s'.renders = s'.memory.length := by
    rw [hmap]
    nofun
  have hprintable := printable?_stringify hmap node
  rw [heq, Reading.value_bind]
  refine ⟨?_, hrenders⟩
  split at hmemory
  · rename_i fault hfollow
    have hkept : s'.Tallied options requests :=
      ⟨hfaithful, hmemory ▸ h.nodup, hmemory ▸ h.mem_keys, hnever⟩
    rw [hfollow] at hprintable
    refine hkept.keep ?_
    intro other hother
    rw [hprintable] at hother
    cases hother
  · rename_i t hfollow
    rw [hfollow] at hprintable
    exact h.remember hprintable hfaithful hmemory hnever

/-- Served, a tree is printed with its map if the options want one. -/
theorem serve_of_wantsMap (h : s.options.wantsMap = true) (node : Node) (reader : Reader) :
    ((s.serve (.stringify (some node))).value reader).1
      = ((s.printWithMap node).value reader).1 := by
  rw [Session.serve, Reading.value_bind, Session.stringify, if_pos h]
  rfl

/-- Served, a tree is looked up in memory if the options want no map. -/
theorem serve_of_not_wantsMap (h : s.options.wantsMap = false) (node : Node) (reader : Reader) :
    ((s.serve (.stringify (some node))).value reader).1 = (s.compile node).1 := by
  rw [Session.serve, Reading.value_bind, Session.stringify,
    if_neg (by rw [h]; exact Bool.false_ne_true)]
  rfl

/-- **Serving a request keeps the tally.** -/
theorem Tallied.serve (h : s.Tallied options requests) (request : Request) (reader : Reader) :
    ((s.serve request).value reader).1.Tallied options (requests ++ [request]) := by
  have hsame := h.faithful.sameOptions
  match request with
  | .compile node => exact (h.compile rfl).1
  | .stringify none => exact h.keep nofun
  | .stringify (some node) =>
      cases hmap : options.wantsMap with
      | true =>
          rw [serve_of_wantsMap (by rw [hsame, hmap])]
          exact (h.printWithMap hmap node reader).1
      | false =>
          rw [serve_of_not_wantsMap (by rw [hsame, hmap])]
          exact (h.compile (printable?_of_not_wantsMap hmap _)).1

/-! ### All requests -/

theorem served_concat (options : Options) (visits : List (Request × Reader)) (request : Request)
    (reader : Reader) :
    served options (visits ++ [(request, reader)])
      = (((served options visits).serve request).value reader).1 := by
  rw [served, List.foldl_append, served]
  rfl

theorem tallied_served (options : Options) (visits : List (Request × Reader)) :
    (served options visits).Tallied options (visits.map Prod.fst) := by
  induction visits using List.reverseRecOn with
  | nil => exact tallied_start options
  | append_singleton visits visit ih =>
      rw [List.map_append, served_concat]
      exact ih.serve visit.1 visit.2

/-- **Trees are printed no more often than needed.** Along any requests to one session, whatever the
files are at each: without a map, the session has printed and remembers one text for each different
tree it was asked about; with a map, it remembers one for each different tree that could be printed,
every present tree is printed each time it is asked for with its map, and the text of a tree alone
is printed unless that tree has been printed before. An absent tree changes nothing.

Trees are different when they are different as data: a floating-point zero in an error is not minus
zero. -/
theorem renders_are_counted (options : Options) (earlier : List (Request × Reader))
    (request : Request) (reader : Reader) :
    let before := served options earlier
    let after := served options (earlier ++ [(request, reader)])
    let asked := earlier.map Prod.fst
    (if options.wantsMap then
      after.memory.length = distinct (rendered options (asked ++ [request])) ∧
        match request with
        | .stringify none => after = before
        | .stringify (some _) => after.renders = before.renders + 1
        | .compile node => after.renders
            = before.renders + if node ∈ rendered options asked then 0 else 1
    else
      after.memory.length = distinct (passed (asked ++ [request])) ∧
        after.renders = distinct (passed (asked ++ [request])) ∧
        match request with
        | .stringify none => after = before
        | _ => True) := by
  intro before after asked
  have htallied : before.Tallied options asked := tallied_served options earlier
  have hafter : after = ((before.serve request).value reader).1 :=
    served_concat options earlier request reader
  have htallied' : after.Tallied options (asked ++ [request]) :=
    hafter ▸ htallied.serve request reader
  have hlength := htallied'.length_memory
  cases hmap : options.wantsMap with
  | true =>
      refine ⟨hlength, ?_⟩
      match request with
      | .compile node =>
          have hprintable : Request.printable? options (.compile node) = some node := rfl
          exact hafter ▸ (htallied.compile hprintable).2
      | .stringify none => exact hafter
      | .stringify (some node) =>
          rw [serve_of_wantsMap (by rw [htallied.faithful.sameOptions, hmap])] at hafter
          exact hafter ▸ (htallied.printWithMap hmap node reader).2
  | false =>
      rw [rendered_of_not_wantsMap hmap] at hlength
      refine ⟨hlength, (htallied'.renders hmap).trans hlength, ?_⟩
      match request with
      | .compile node => trivial
      | .stringify none => exact hafter
      | .stringify (some node) => trivial

end Session

end StylePrint
