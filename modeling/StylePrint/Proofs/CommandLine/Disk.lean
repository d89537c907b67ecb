import StylePrint.CommandLine.Run
import StylePrint.Proofs.SourceMap.Reading
/-!
Runs of the command line against any files. A `Disk` answers the requests of a run, and a working
folder is one (`Act.runOn_folder`). Until a run puts something out it only reads
(`Act.ReadsOnly.keeps`). A run that ends well with the text for standard output has loaded options
and a tree, and what it puts out is the tree as it is printed under these options (`execute_ok`,
`program_ok`).
-/

namespace StylePrint.CommandLine

open StylePrint.SourceMap

/-! ### Disks -/

/-- Files that can be read and written. A write that fails leaves every file as it was, the one at
its path as well: it fails where that file cannot be opened. Left out are disks that open and empty
a file and then fail to fill it, as a full one does. -/
structure Disk where
  State : Type
  /-- Reads the file at a path. -/
  read : State → Reader
  /-- Puts a file at a path; `none` when it cannot be opened there. -/
  write? : State → String → String → Option State

/-- The disk that a working folder is. -/
def Folder.disk : Disk := ⟨Folder, Folder.read, Folder.write?⟩

namespace Act

variable {α β : Type}

/-- Runs a computation on a disk: its value, and the state of the disk afterwards. -/
def runOn (disk : Disk) (input : Option String) (s : disk.State) : Act α → α × disk.State
  | .done value => (value, s)
  | .read path next => (next (disk.read s path)).runOn disk input s
  | .write path content next =>
    match disk.write? s path content with
    | some s => (next true).runOn disk input s
    | none => (next false).runOn disk input s
  | .input next => (next input).runOn disk input s

section Runs

variable (disk : Disk) (input : Option String) {s s' : disk.State} {path content : String}
  {next : Bool → Act α}

theorem runOn_write_some (h : disk.write? s path content = some s') :
    (write path content next).runOn disk input s = (next true).runOn disk input s' := by
  rw [runOn, h]

theorem runOn_write_none (h : disk.write? s path content = none) :
    (write path content next).runOn disk input s = (next false).runOn disk input s := by
  rw [runOn, h]

/-- A run in a folder is one on the disk that the folder is. -/
theorem runOn_folder (folder : Folder) (x : Act α) :
    x.runOn Folder.disk input folder = x.run input folder := by
  induction x generalizing folder with
  | done value => rfl
  | read path next ih => exact ih _ folder
  | write path content next ih =>
      rw [run]
      cases hwrite : folder.write? path content with
      | some folder' => exact (runOn_write_some Folder.disk input hwrite).trans (ih true folder')
      | none => exact (runOn_write_none Folder.disk input hwrite).trans (ih false folder)
  | input next ih => exact ih input folder

theorem runOn_bind (s : disk.State) (x : Act α) (f : α → Act β) :
    (x >>= f).runOn disk input s
      = (f (x.runOn disk input s).1).runOn disk input (x.runOn disk input s).2 := by
  induction x generalizing s with
  | done value => rfl
  | read path next ih => exact ih _ s
  | write path content next ih =>
      cases hwrite : disk.write? s path content with
      | some s' =>
          rw [runOn_write_some disk input hwrite, ← ih true s']
          exact runOn_write_some disk input hwrite
      | none =>
          rw [runOn_write_none disk input hwrite, ← ih false s]
          exact runOn_write_none disk input hwrite
  | input next ih => exact ih input s

theorem runOn_ofReading (s : disk.State) (x : Reading α) :
    (ofReading x).runOn disk input s = (x.value (disk.read s), s) := by
  induction x with
  | done value => rfl
  | ask path next ih => exact ih (disk.read s path)

end Runs

/-! ### Computations that only read -/

/-- Whether a computation never writes, whatever it is answered. -/
inductive ReadsOnly : Act α → Prop where
  | done (value : α) : ReadsOnly (.done value)
  | read {path : String} {next : Except ReadFault String → Act α}
      (h : ∀ answer, ReadsOnly (next answer)) : ReadsOnly (.read path next)
  | input {next : Option String → Act α} (h : ∀ text, ReadsOnly (next text)) :
      ReadsOnly (.input next)

theorem ReadsOnly.bind {x : Act α} {f : α → Act β} (hx : x.ReadsOnly)
    (hf : ∀ a, (f a).ReadsOnly) : (x >>= f).ReadsOnly := by
  induction hx with
  | done value => exact hf value
  | read h ih => exact .read ih
  | input h ih => exact .input ih

/-- What only reads leaves the disk as it is, however it ends. -/
theorem ReadsOnly.keeps {disk : Disk} {input : Option String} {x : Act α} {a : α}
    {s s' : disk.State} (hx : x.ReadsOnly) (h : x.runOn disk input s = (a, s')) : s = s' := by
  induction hx with
  | done value => exact (Prod.mk.inj h).2
  | read hnext ih => exact ih _ h
  | input hnext ih => exact ih _ h

end Act

/-! ### How steps end -/

section Steps

variable {α β : Type} {disk : Disk} {input : Option String} {s s' : disk.State}

/-- A step followed by another ends as it does when it fails, and else as the other does. -/
theorem bind_eq {x : Step α} {f : α → Step β} {outcome : Except Failure β} :
    (x >>= f).run.runOn disk input s = (outcome, s') ↔
      (∃ failure, x.run.runOn disk input s = (.error failure, s') ∧ outcome = .error failure) ∨
        ∃ a t, x.run.runOn disk input s = (.ok a, t) ∧
          (f a).run.runOn disk input t = (outcome, s') := by
  rw [ExceptT.run_bind, Act.runOn_bind]
  rcases x.run.runOn disk input s with ⟨failure | a, t⟩
  · constructor
    · rintro ⟨⟩
      exact .inl ⟨failure, rfl, rfl⟩
    · rintro (⟨_, ⟨⟩, rfl⟩ | ⟨_, _, ⟨⟩, -⟩)
      rfl
  · constructor
    · intro h
      exact .inr ⟨a, t, rfl, h⟩
    · rintro (⟨_, ⟨⟩, -⟩ | ⟨_, _, ⟨⟩, h⟩)
      exact h

/-- A step followed by another ends well exactly when both do. -/
theorem bind_ok {x : Step α} {f : α → Step β} {b : β} :
    (x >>= f).run.runOn disk input s = (.ok b, s') ↔
      ∃ a t, x.run.runOn disk input s = (.ok a, t) ∧
        (f a).run.runOn disk input t = (.ok b, s') := by
  refine bind_eq.trans (or_iff_right ?_)
  rintro ⟨_, -, ⟨⟩⟩

theorem pure_ok {a b : α} :
    (pure a : Step α).run.runOn disk input s = (.ok b, s') ↔ a = b ∧ s = s' := by
  constructor
  · rintro ⟨⟩
    exact ⟨rfl, rfl⟩
  · rintro ⟨rfl, rfl⟩
    rfl

theorem lift_ok {x : Act α} {b : α} :
    (liftM x : Step α).run.runOn disk input s = (.ok b, s') ↔ x.runOn disk input s = (b, s') := by
  have hlift : (liftM x : Step α).run = x >>= fun a => pure (.ok a) := rfl
  rw [hlift, Act.runOn_bind]
  rcases x.runOn disk input s with ⟨a, t⟩
  constructor
  · rintro ⟨⟩
    rfl
  · rintro ⟨⟩
    rfl

/-- What is asked without a failure in mind does not fail. -/
theorem lift_error {x : Act α} {failure : Failure} :
    ¬ (liftM x : Step α).run.runOn disk input s = (.error failure, s') := by
  have hlift : (liftM x : Step α).run = x >>= fun a => pure (.ok a) := rfl
  rw [hlift, Act.runOn_bind]
  exact nofun

theorem writeFile_ok {path content : String} :
    (writeFile path content).run.runOn disk input s = (.ok (), s') ↔
      disk.write? s path content = some s' := by
  simp only [writeFile, bind_ok, lift_ok]
  cases hwrite : disk.write? s path content with
  | some t =>
      rw [Act.runOn_write_some disk input hwrite]
      constructor
      · rintro ⟨_, _, ⟨⟩, ⟨⟩⟩
        rfl
      · rintro ⟨⟩
        exact ⟨_, _, rfl, rfl⟩
  | none =>
      rw [Act.runOn_write_none disk input hwrite]
      constructor
      · rintro ⟨_, _, ⟨⟩, ⟨⟩⟩
      · exact nofun

end Steps

/-! ### Steps that only read -/

section Reads

variable {α β : Type}

/-- A step that only reads, followed by such steps, only reads. -/
theorem readsOnly_bind {x : Step α} {f : α → Step β} (hx : x.run.ReadsOnly)
    (hf : ∀ a, (f a).run.ReadsOnly) : (x >>= f).run.ReadsOnly := by
  rw [ExceptT.run_bind]
  refine hx.bind ?_
  rintro (failure | a)
  · exact .done _
  · exact hf a

theorem readsOnly_readFile (path : String) (failure : Failure) :
    (readFile path failure).run.ReadsOnly := by
  refine .read fun answer => ?_
  cases answer <;> exact .done _

theorem readsOnly_loadOptions (a : Arguments) : (loadOptions a).run.ReadsOnly := by
  unfold loadOptions
  split
  · exact .done _
  · rename_i path hpath
    refine readsOnly_bind (readsOnly_readFile path _) fun text => ?_
    split <;> exact .done _

theorem readsOnly_loadTree (a : Arguments) : (loadTree a).run.ReadsOnly := by
  rw [loadTree]
  split
  · refine .input fun text => ?_
    cases text <;> exact .done _
  · exact readsOnly_readFile _ _

end Reads

/-! ### How runs end -/

section Runs

variable {disk : Disk} {input : Option String} {s s' : disk.State} {a : Arguments}

/-- What a run with given arguments prints: the tree that it reads, under the options that it
loads. -/
structure Prints (disk : Disk) (input : Option String) (s : disk.State) (a : Arguments)
    (options : Options) (tree : Json) (printed : Printed) : Prop where
  loads : (loadOptions a).run.runOn disk input s = (.ok options, s)
  reads : ∃ text, (loadTree a).run.runOn disk input s = (.ok text, s) ∧ Json.parse? text = some tree
  prints : (stringifyJson options tree).value (disk.read s) = .ok printed

/-- A run fails before it has changed a file, or ends as it puts out what it prints. -/
theorem execute_eq {outcome : Except Failure String}
    (h : (execute a).run.runOn disk input s = (outcome, s')) :
    ((∃ failure, outcome = .error failure) ∧ s = s') ∨
      ∃ options tree printed, Prints disk input s a options tree printed ∧
        (putOut printed a.output).run.runOn disk input s = (outcome, s') := by
  rw [execute] at h
  rcases bind_eq.mp h with ⟨failure, hfails, hfailure⟩ | ⟨options, t, hoptions, h⟩
  · exact .inl ⟨⟨failure, hfailure⟩, (readsOnly_loadOptions a).keeps hfails⟩
  obtain rfl := (readsOnly_loadOptions a).keeps hoptions
  rcases bind_eq.mp h with ⟨failure, hfails, hfailure⟩ | ⟨text, t, htext, h⟩
  · exact .inl ⟨⟨failure, hfailure⟩, (readsOnly_loadTree a).keeps hfails⟩
  obtain rfl := (readsOnly_loadTree a).keeps htext
  split at h
  · obtain ⟨rfl, rfl⟩ := Prod.mk.inj h
    exact .inl ⟨⟨_, rfl⟩, rfl⟩
  · rename_i tree htree
    have hreading := Act.runOn_ofReading disk input s (stringifyJson options tree)
    rcases bind_eq.mp h with ⟨failure, hfails, -⟩ | ⟨answer, t, hanswer, h⟩
    · exact absurd hfails lift_error
    obtain ⟨hvalue, rfl⟩ := Prod.mk.inj (hreading.symm.trans (lift_ok.mp hanswer))
    split at h
    · rename_i printed
      exact .inr ⟨options, tree, printed, ⟨hoptions, ⟨text, htext, htree⟩, hvalue⟩, h⟩
    · obtain ⟨rfl, rfl⟩ := Prod.mk.inj h
      exact .inl ⟨⟨_, rfl⟩, rfl⟩

/-- A run that ends well puts out what it prints, and has changed no file before. -/
theorem execute_ok {stdout : String}
    (h : (execute a).run.runOn disk input s = (.ok stdout, s')) :
    ∃ options tree printed, Prints disk input s a options tree printed ∧
      (putOut printed a.output).run.runOn disk input s = (.ok stdout, s') := by
  refine (execute_eq h).resolve_left ?_
  rintro ⟨⟨_, ⟨⟩⟩, -⟩

/-- A run of the program with status zero is one that ends well. -/
theorem program_ok {args : List String} {outcome : Outcome}
    (hargs : Invocation.ofWords args = .run a)
    (hrun : (program args).runOn disk input s = (outcome, s')) (hstatus : outcome.status = 0) :
    (execute a).run.runOn disk input s = (.ok outcome.stdout, s') := by
  rw [program, hargs, Act.runOn_bind] at hrun
  rcases hexecute : (execute a).run.runOn disk input s with ⟨_ | stdout, t⟩
  · rw [hexecute] at hrun
    obtain ⟨rfl, -⟩ := Prod.mk.inj hrun
    cases hstatus
  · rw [hexecute] at hrun
    obtain ⟨rfl, rfl⟩ := Prod.mk.inj hrun
    rfl

end Runs

end StylePrint.CommandLine
