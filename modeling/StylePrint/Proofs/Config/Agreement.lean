import StylePrint.Proofs.Config.Lines
import StylePrint.Proofs.Options.Order
/-!
Configuration files and JSON objects agree. A file that writes options under keys of their own gives
what a JSON object with the same options gives, in whatever order and way either of them is written,
and one is refused exactly when the other is (`Config.file_agrees_with_object`).
-/

namespace StylePrint.Config

open Json (sortMembers)

variable {options : List (String × Scalar)}

theorem keys_member (options : List (String × Scalar)) :
    (options.map member).map Prod.fst = options.map Prod.fst := by
  rw [List.map_map]
  rfl

/-- No option of a file is missing its value. -/
theorem member_ne_null (option : String × Scalar) : (member option).2 ≠ .null := by
  obtain ⟨name, scalar⟩ := option
  cases scalar <;> exact nofun

/-- **Files and objects agree.** Options under keys of their own can be written in a file. Any file
that writes them, in any order and with any comments, and any JSON object with the same members are
read as the same options, and one is refused exactly when the other is: when a known option has a
value of another kind than its own. -/
theorem file_agrees_with_object (hkeys : (options.map Prod.fst).Nodup) :
    (∃ text, Writes text options) ∧
    ∀ (text : String) (members : List (String × Json)), Writes text options →
      members.Perm (options.map member) →
      (∀ o, parse text = .ok o ↔ Options.ofJson (.object members) = .ok o) ∧
      ((∃ fault, parse text = .error fault)
        ↔ ∃ fault, Options.ofJson (.object members) = .error fault) ∧
      ((∃ o, parse text = .ok o) ↔ ∀ option ∈ options, Options.Fits (member option)) := by
  refine ⟨⟨write options, writes_write options⟩, ?_⟩
  intro text members htext hmembers
  have hnames : (members.map Prod.fst).Nodup := by
    rw [(hmembers.map Prod.fst).nodup_iff, keys_member]
    exact hkeys
  have hnull : ∀ member ∈ members, member.2 ≠ .null := by
    intro m hm
    obtain ⟨option, -, rfl⟩ := List.mem_map.mp (hmembers.mem_iff.mp hm)
    exact member_ne_null option
  have hsorted : members.Perm (sortMembers (options.map member)) :=
    hmembers.trans (Json.sortMembers_perm (by rwa [keys_member])).symm
  have hagree (o : Options) : parse text = .ok o ↔ Options.ofJson (.object members) = .ok o := by
    rw [parse_of_writes htext hkeys, Except.mapError_eq_ok]
    exact (Options.ofJson_eq_ok_of_perm hsorted hnames hnull o).symm
  have hreads : (∃ o, parse text = .ok o) ↔ ∃ o, Options.ofJson (.object members) = .ok o :=
    exists_congr hagree
  refine ⟨hagree, ?_, ?_⟩
  · rw [Except.exists_eq_error_iff, Except.exists_eq_error_iff, hreads]
  · rw [hreads, Options.exists_ofJson_iff hnull]
    simp only [hmembers.mem_iff, List.forall_mem_map]

/-- A file with a comment line, an escaped key and an integer in base sixteen is read as the object
of its options in the other order; and an integer is no truth value. -/
theorem file_agrees_with_object_of_escapes :
    let options : List (String × Scalar) := [("indent", .text "\t"), ("A", .integer 255)]
    let members : List (String × Json) :=
      [("A", .number (.integer 255)), ("indent", .string "\t")]
    let text := "# usual\r\nindent=\"\\t\" # tab\n\"\\u0041\" = 0xF_f"
    let unfit : List (String × Scalar) := [("compress", .integer 1)]
    ((options.map Prod.fst).Nodup ∧ Writes text options ∧ members.Perm (options.map member)) ∧
      parse text = .ok { indent := some "\t", extra := [("A", .number (.integer 255))] } ∧
      ((unfit.map Prod.fst).Nodup ∧ Writes (write unfit) unfit) ∧
      ∃ fault, parse (write unfit) = .error fault := by
  intro options members text unfit
  have hkeys : (options.map Prod.fst).Nodup := by decide
  have hnone : Blanks [] := nofun
  have hspace : Blanks [' '] := by simp [Blanks, isBlank]
  -- the comment
  have hcomment : LineForm ['#', ' ', 'u', 's', 'u', 'a', 'l'] none :=
    .idle (.comment (by simp [isControl]))
  -- the tab behind a bare key
  have hkey : KeyForm ['i', 'n', 'd', 'e', 'n', 't'] "indent" :=
    .bare (by decide) (List.all_eq_true.mp rfl)
  have htab : CharForm '\t' ['\\', 't'] := .letter (by decide)
  have hending : Ending [' ', '#', ' ', 't', 'a', 'b'] :=
    .blank rfl (.comment (by simp [isControl]))
  have hindent := LineForm.entry hnone hkey hnone hnone (.text (.next htab .close)) hending
  -- the integer behind an escaped key
  have hcode : Digits 16 ['0', '0', '4', '1'] 'A'.toNat :=
    (digits_zeros.next (v := 4) (by decide) (.inl rfl)).next (v := 1) (by decide) (.inl rfl)
  have hdigits : Digits 16 ['F', 'f'] 255 :=
    (Digits.none.next (v := 15) (by decide) (.inr rfl)).next (v := 15) (by decide) (.inl rfl)
  have hvalue : IntegerForm ['0', 'x', 'F', '_', 'f'] (255 : Int64).toInt :=
    .based (n := 255) (by decide) ⟨[['F'], ['f']], by decide, by decide, rfl, hdigits⟩
  have hletter := LineForm.entry hnone (.quoted (.next (.short rfl hcode) .close)) hspace hspace
    (.integer hvalue) .nothing
  have hlines := LinesForm.next hcomment (.inr rfl) (.next hindent (.inl rfl) (.last hletter))
  have htext : Writes text options := ⟨_, .inl String.toList_ofList, hlines⟩
  have hmembers : members.Perm (options.map member) := .swap ..
  have hunfit : (unfit.map Prod.fst).Nodup := by decide
  refine ⟨⟨hkeys, htext, hmembers⟩, ?_, ⟨hunfit, writes_write unfit⟩, ?_⟩
  · exact (((file_agrees_with_object hkeys).2 text members htext hmembers).1 _).mpr rfl
  · have hagree := (file_agrees_with_object hunfit).2 (write unfit) _ (writes_write unfit) (.refl _)
    exact hagree.2.1.mpr ⟨.malformed, rfl⟩

end StylePrint.Config
