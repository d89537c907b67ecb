import Mathlib.Data.List.Forall2
import StylePrint.Proofs.Session.Printing
import StylePrint.Proofs.Sheet.RoundTrip
/-!
A session answers each request as if it were the first. Whatever a session was asked before, with
or without success, its printer has no tracker and its memory holds nothing but texts of trees
(`Session.Faithful`). One request keeps it so and is answered as a new session answers it
(`Session.Faithful.serve`), and so are all requests of a run (`Session.history_does_not_show`).
-/

namespace StylePrint

open StylePrint.SourceMap StylePrint.Sheet

/-! ### Requests -/

/-- What a session can be asked for. -/
inductive Request where
  /-- A tree, which may be absent, as the options ask. -/
  | stringify (node : Option Node)
  /-- The text of a tree. -/
  | compile (node : Node)

/-- The answer to a request. -/
inductive Answer where
  | printed (outcome : Except PrintError Printed)
  | compiled (outcome : Except PrintError String)

/-- Whether a request is answered as if there had been no other: a tree as a new session with the
same options and files prints it, a text as a new printer without a tracker writes it. -/
def Request.AnsweredAlone (options : Options) (reader : Reader) : Request → Answer → Prop
  | .stringify node, .printed outcome => outcome = (StylePrint.stringify options node).value reader
  | .compile node, .compiled outcome => ∃ code, outcome = .ok code ∧
      ((Printer.start options).print options.layout node).2 = .ok code
  | _, _ => False

namespace Session

/-- Serves a request. -/
def serve (s : Session) : Request → Reading (Session × Answer)
  | .stringify node => do
    let (s, outcome) ← s.stringify node
    return (s, .printed outcome)
  | .compile node =>
    let (s, outcome) := s.compile node
    return (s, .compiled outcome)

/-- Serves requests one after another: the session after each, and its answer. -/
def serveAll (s : Session) : List Request → Reading (List (Session × Answer))
  | [] => return []
  | request :: rest => do
    let served ← s.serve request
    let others ← served.1.serveAll rest
    return served :: others

/-! ### Memory -/

/-- Memory is faithful when each text in it is that of a tree with its key. -/
def Remembers (options : Options) (memory : List (String × String)) : Prop :=
  ∀ entry ∈ memory, ∃ node : Node,
    entry = (node.key, options.layout.text options.indentation node)

/-- What faithful memory holds for a tree is the text of that tree. -/
theorem Remembers.lookup {options : Options} {memory : List (String × String)}
    (h : Remembers options memory) {node : Node} {code : String}
    (hlookup : memory.lookup node.key = some code) :
    code = options.layout.text options.indentation node := by
  obtain ⟨before, after, rfl, -⟩ := List.lookup_eq_some_iff.mp hlookup
  obtain ⟨other, hentry⟩ := h _ (List.mem_append_right _ List.mem_cons_self)
  obtain ⟨hkey, rfl⟩ := Prod.mk.inj hentry
  rw [Node.key_inj hkey]

/-- Remembering the text of a tree keeps memory faithful. -/
theorem Remembers.remember {options : Options} {memory : List (String × String)}
    (h : Remembers options memory) (node : Node) :
    Remembers options
      (remember memory node.key (options.layout.text options.indentation node)) := by
  intro entry hentry
  rcases List.mem_cons.mp hentry with rfl | hentry
  · exact ⟨node, rfl⟩
  · exact h entry (List.mem_filter.mp hentry).1

/-! ### One request -/

/-- A session is faithful to its options when no request has left a trace that answers show. -/
structure Faithful (options : Options) (s : Session) : Prop where
  sameOptions : s.options = options
  unit : s.printer.unit = options.indentation
  untracked : s.printer.tracker = none
  memory : Remembers options s.memory

theorem faithful_start (options : Options) : (start options).Faithful options where
  sameOptions := rfl
  unit := rfl
  untracked := rfl
  memory := nofun

variable {options : Options} {s : Session}

/-- Printing with a map keeps a session faithful; the text is remembered unless the tracker refuses
a mark. -/
theorem Faithful.printWithMap_eq (h : s.Faithful options) (node : Node) :
    ∃ s' : Session, s.printWithMap node = (mapped options node >>= fun outcome =>
      pure (s', outcome)) ∧ s'.Faithful options ∧ s'.renders = s.renders + 1 ∧
      s'.memory = match (Tracker.start options).follow
          (Layout.pieces options.indentation 1 (options.layout.steps node)) with
        | .error _ => s.memory
        | .ok _ => remember s.memory node.key (options.layout.text options.indentation node) := by
  obtain ⟨hsame, hunit, -, hmemory⟩ := h
  subst hsame
  obtain ⟨s', heq, hsame', hunit', huntracked', hrenders', hmemory'⟩ :=
    s.printWithMap_eq hunit node
  refine ⟨s', heq, ⟨hsame', hunit'.trans hunit, huntracked', ?_⟩, hrenders', hmemory'⟩
  rw [hmemory']
  split
  · exact hmemory
  · exact hmemory.remember node

/-- A faithful session always has the text of a tree, from memory or not, and stays faithful. -/
theorem Faithful.compile_eq (h : s.Faithful options) (node : Node) :
    ∃ s' : Session, s.compile node
      = (s', .ok (options.layout.text options.indentation node)) ∧ s'.Faithful options := by
  cases hlookup : s.memory.lookup node.key with
  | some code =>
      obtain rfl := h.memory.lookup hlookup
      exact ⟨s, by rw [compile, hlookup], h⟩
  | none =>
      obtain ⟨hsame, hunit, huntracked, hmemory⟩ := h
      subst hsame
      have heq := s.render_untracked huntracked node
      rw [hunit] at heq
      refine ⟨_, by rw [compile, hlookup]; exact heq, ?_⟩
      exact ⟨rfl, hunit, rfl, hmemory.remember node⟩

/-- A faithful session prints a tree as a new session does, asking for the same files, and stays
faithful. -/
theorem Faithful.stringify_eq (h : s.Faithful options) (node : Option Node) :
    ∃ s' : Session, s.stringify node = (StylePrint.stringify options node >>= fun outcome =>
      pure (s', outcome)) ∧ s'.Faithful options := by
  cases node with
  | none => exact ⟨s, rfl, h⟩
  | some node =>
      cases hmap : options.wantsMap with
      | true =>
          rw [stringify_of_wantsMap hmap, stringify, if_pos (by rw [h.sameOptions, hmap])]
          obtain ⟨s', heq, hs', -⟩ := h.printWithMap_eq node
          exact ⟨s', heq, hs'⟩
      | false =>
          obtain ⟨s', heq, hs'⟩ := h.compile_eq node
          refine ⟨s', ?_, hs'⟩
          rw [stringify_of_not_wantsMap hmap, stringify,
            if_neg (by rw [h.sameOptions, hmap]; exact Bool.false_ne_true), heq]
          rfl

/-- A new printer always writes the text of a tree. -/
theorem print_start (options : Options) (node : Node) :
    ((Printer.start options).print options.layout node).2
      = .ok (options.layout.text options.indentation node) := by
  rw [Printer.print_untracked _ _ _ rfl]
  rfl

/-- **A request leaves a faithful session faithful**, and is answered as if there had been no
other. -/
theorem Faithful.serve (h : s.Faithful options) (request : Request) (reader : Reader) :
    ((s.serve request).value reader).1.Faithful options ∧
      request.AnsweredAlone options reader ((s.serve request).value reader).2 := by
  cases request with
  | stringify node =>
      obtain ⟨s', heq, hs'⟩ := h.stringify_eq node
      rw [Session.serve, heq, Reading.bind_assoc, Reading.value_bind]
      exact ⟨hs', rfl⟩
  | compile node =>
      obtain ⟨s', heq, hs'⟩ := h.compile_eq node
      rw [Session.serve, heq]
      exact ⟨hs', _, rfl, print_start options node⟩

/-! ### All requests -/

/-- Along any requests a faithful session stays faithful, and each is answered as if there had been
no other. -/
theorem Faithful.serveAll (h : s.Faithful options) (reader : Reader) (requests : List Request) :
    List.Forall₂ (fun request served => request.AnsweredAlone options reader served.2 ∧
        served.1.Faithful options)
      requests ((s.serveAll requests).value reader) := by
  induction requests generalizing s with
  | nil => exact .nil
  | cons request rest ih =>
      obtain ⟨hs', hanswer⟩ := h.serve request reader
      rw [Session.serveAll, Reading.value_bind, Reading.value_bind]
      exact .cons ⟨hanswer, hs'⟩ (ih hs')

/-- **History does not show in the answers.** Along any requests to one session, whether they
succeed or not, each is answered as if there had been no other, and no tracker is left on the
printer after any of them. -/
theorem history_does_not_show (options : Options) (reader : Reader) (requests : List Request) :
    List.Forall₂ (fun request served => request.AnsweredAlone options reader served.2 ∧
        served.1.printer.tracker = none)
      requests (((start options).serveAll requests).value reader) :=
  ((faithful_start options).serveAll reader requests).imp
    fun _ _ h => ⟨h.1, h.2.untracked⟩

end Session

end StylePrint
