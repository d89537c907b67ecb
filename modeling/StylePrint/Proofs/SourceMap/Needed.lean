import StylePrint.Proofs.SourceMap.Linked
import StylePrint.SourceMap.Index
/-!
What following a link asks for and comes to. A link asks for one file, the one at its address read
from the directory of the text, unless the address is absolute; then it asks for none
(`asked_load`). So at most one file is needed for the map of a text (`asked_linkedMap?`), and
whether the map is had shows in three steps: its text is looked up, read, and decoded
(`linkedIndex?`).
-/

namespace StylePrint.SourceMap

/-! ### Links -/

/-- The path of the file that is needed to follow a link from the text at `path`. -/
def neededFor? (address path : String) : Option String :=
  if UrlPath.isAbsolute address then none
  else some (UrlPath.join (UrlPath.directory path) address)

/-- The text of the map at an address that stands in the text at `path`. -/
def textAt (reader : Reader) (address path : String) : Except MapError String :=
  if UrlPath.isData address.toList then DataUri.decode (address.toList.drop 5)
  else
    match neededFor? address path with
    | none => .error (.remote address)
    | some mapPath => (reader mapPath).mapError (.read mapPath)

variable (reader : Reader)

theorem asked_fileText (path : String) : (fileText path).run.asked reader = [path] := by
  rw [fileText, Reading.asked_run_bind_of_quiet]
  · rfl
  · intro answer
    cases answer <;> rfl

theorem value_fileText (path : String) :
    (fileText path).run.value reader = (reader path).mapError (.read path) := by
  rw [fileText, Reading.value_run_bind]
  show (Except.ok (reader path) >>= _) = _
  cases reader path <;> rfl

section Parsing

variable (text address relativeTo : String)

/-- Reading the text of a map asks for nothing. -/
theorem asked_parsing :
    (do
      let map ← liftM (parseGuarded text)
      return ⟨map, address, relativeTo⟩ : ExceptT MapError Reading LinkedMap).run.asked reader
        = [] := by
  rw [Reading.asked_run_bind_of_quiet, Reading.asked_liftM]
  exact fun map => rfl

theorem value_parsing :
    (do
      let map ← liftM (parseGuarded text)
      return ⟨map, address, relativeTo⟩ : ExceptT MapError Reading LinkedMap).run.value reader
        = (parseGuarded text).map (⟨·, address, relativeTo⟩) := by
  rw [Reading.value_liftM_bind]
  cases parseGuarded text <;> rfl

theorem map_parsing (found : Except MapError String) :
    (found >>= fun text => (parseGuarded text).map (LinkedMap.mk · address relativeTo)).map
      LinkedMap.map = found >>= parseGuarded := by
  cases found with
  | error fault => rfl
  | ok text =>
      show ((parseGuarded text).map _).map _ = parseGuarded text
      cases parseGuarded text <;> rfl

end Parsing

/-- Data addresses are absolute. -/
theorem isAbsolute_of_isData {address : String} (h : UrlPath.isData address.toList = true) :
    UrlPath.isAbsolute address = true :=
  Bool.or_eq_true_iff.mpr (.inl h)

/-- Loading a map asks for the file that is needed for it and for no other, whether it goes well or
not. -/
theorem asked_load (address path : String) :
    (load address path).run.asked reader = (neededFor? address path).toList := by
  have quiet (relativeTo : String) := fun text => asked_parsing reader text address relativeTo
  rw [load, neededFor?]
  split
  · rename_i hdata
    rw [if_pos (isAbsolute_of_isData hdata), Reading.asked_run_bind_of_quiet _ (quiet path),
      Reading.asked_liftM]
    rfl
  · split
    · rfl
    · rw [Reading.asked_run_bind_of_quiet _ (quiet _), asked_fileText]
      rfl

/-- Loading a map comes to looking up its text and reading it. -/
theorem value_load (address path : String) :
    ((load address path).run.value reader).map LinkedMap.map
      = textAt reader address path >>= parseGuarded := by
  rw [load, textAt, neededFor?]
  split
  · rw [Reading.value_liftM_bind]
    simp only [value_parsing, map_parsing]
  · split
    · rfl
    · rw [Reading.value_run_bind, value_fileText]
      simp only [value_parsing, map_parsing]

/-! ### Annotations -/

/-- The path of the file that is needed to follow the annotation of the text at `path`, if it has
one. -/
def needed? (code path : String) : Option String :=
  (LinkComment.address? code).bind (neededFor? · path)

/-- The map that the text at `path` links to, if it links to any: its text is looked up, read and
decoded. -/
def linkedIndex? (code path : String) : Except MapError (Option Index) :=
  match LinkComment.address? code with
  | none => .ok none
  | some address => do
    let map ← textAt reader address path >>= parseGuarded
    let index ← Index.ofRaw map
    return some index

/-- For the map of a text the file is asked for that is needed, and no other. -/
theorem asked_linkedMap? (code path : String) :
    (linkedMap? code path).run.asked reader = (needed? code path).toList := by
  rw [linkedMap?, needed?]
  cases LinkComment.address? code with
  | none => rfl
  | some address =>
      show (load address path >>= fun linked => pure (some linked)).run.asked reader = _
      rw [Reading.asked_run_bind_of_quiet, asked_load]
      · rfl
      · exact fun linked => rfl

end StylePrint.SourceMap
