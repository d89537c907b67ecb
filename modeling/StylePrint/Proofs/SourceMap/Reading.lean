import StylePrint.SourceMap.Reading
/-!
Computations that read files, put together: running one after another gives the value of the second
on the value of the first, and the files both ask for, in order.
-/

namespace StylePrint.SourceMap.Reading

variable {α β γ : Type}

@[simp] theorem pure_bind (a : α) (f : α → Reading β) : (pure a : Reading α) >>= f = f a := rfl

theorem bind_assoc (x : Reading α) (f : α → Reading β) (g : β → Reading γ) :
    x >>= f >>= g = x >>= fun a => f a >>= g := by
  induction x with
  | done a => rfl
  | ask path next ih => exact congrArg (Reading.ask path) (funext fun answer => ih answer)

theorem map_eq_bind (x : Reading α) (f : α → β) : f <$> x = x >>= fun a => pure (f a) := rfl

@[simp] theorem bind_pure (x : Reading α) : (x >>= fun a => pure a) = x := by
  induction x with
  | done a => rfl
  | ask path next ih => exact congrArg (Reading.ask path) (funext fun answer => ih answer)

instance : LawfulMonad Reading :=
  LawfulMonad.mk' Reading bind_pure pure_bind bind_assoc

theorem run_bind (x : Reading α) (f : α → Reading β) (reader : Reader) :
    (x >>= f).run reader
      = (((f (x.value reader)).value reader,
          x.asked reader ++ (f (x.value reader)).asked reader)) := by
  induction x with
  | done a => rfl
  | ask path next ih =>
      have h := ih (reader path)
      have hrun : (Reading.ask path next >>= f).run reader
          = (((next (reader path) >>= f).run reader).1,
              path :: ((next (reader path) >>= f).run reader).2) := rfl
      rw [hrun, h]
      rfl

@[simp] theorem value_pure (a : α) (reader : Reader) : (pure a : Reading α).value reader = a := rfl

@[simp] theorem value_bind (x : Reading α) (f : α → Reading β) (reader : Reader) :
    (x >>= f).value reader = (f (x.value reader)).value reader := by
  rw [value, run_bind]

/-- One computation after another asks for what the first one asks for, and then the second. -/
theorem asked_bind (x : Reading α) (f : α → Reading β) (reader : Reader) :
    (x >>= f).asked reader = x.asked reader ++ (f (x.value reader)).asked reader :=
  congrArg Prod.snd (run_bind x f reader)

/-! ### Computations that may fail -/

/-- A computation that may fail goes on unless it fails. -/
theorem value_run_bind {ε : Type} (x : ExceptT ε Reading α) (f : α → ExceptT ε Reading β)
    (reader : Reader) :
    (x >>= f).run.value reader = x.run.value reader >>= fun a => (f a).run.value reader := by
  rw [ExceptT.run_bind, value_bind]
  cases x.run.value reader <;> rfl

@[simp] theorem value_liftM {ε : Type} (x : Except ε α) (reader : Reader) :
    (liftM x : ExceptT ε Reading α).run.value reader = x := by
  cases x <;> rfl

theorem value_liftM_bind {ε : Type} (x : Except ε α) (f : α → ExceptT ε Reading β)
    (reader : Reader) :
    (liftM x >>= f).run.value reader = x >>= fun a => (f a).run.value reader := by
  rw [value_run_bind, value_liftM]

@[simp] theorem asked_liftM {ε : Type} (x : Except ε α) (reader : Reader) :
    (liftM x : ExceptT ε Reading α).run.asked reader = [] := by
  cases x <;> rfl

/-- What a computation goes on with may ask for nothing more. -/
theorem asked_run_bind_of_quiet {ε : Type} (x : ExceptT ε Reading α)
    {f : α → ExceptT ε Reading β} {reader : Reader} (h : ∀ a, (f a).run.asked reader = []) :
    (x >>= f).run.asked reader = x.run.asked reader := by
  rw [ExceptT.run_bind, asked_bind]
  cases x.run.value reader with
  | error fault => exact List.append_nil _
  | ok a => exact (congrArg (_ ++ ·) (h a)).trans (List.append_nil _)

/-- A computation that may fail goes on with its value when it succeeds. -/
theorem run_bind_of_ok {ε : Type} {x : ExceptT ε Reading α} {a : α} {reader : Reader}
    {asked : List String} (h : x.run.run reader = (.ok a, asked)) (f : α → ExceptT ε Reading β) :
    (x >>= f).run.run reader
      = ((f a).run.value reader, asked ++ (f a).run.asked reader) := by
  have hvalue : x.run.value reader = .ok a := congrArg Prod.fst h
  have hasked : x.run.asked reader = asked := congrArg Prod.snd h
  rw [ExceptT.run_bind, run_bind, hvalue, hasked]

end StylePrint.SourceMap.Reading
