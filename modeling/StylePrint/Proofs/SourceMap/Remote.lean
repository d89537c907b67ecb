import StylePrint.Proofs.SourceMap.Needed
import StylePrint.Proofs.UrlPath.Address
/-!
Maps at absolute addresses. A link is refused where the annotation writes an absolute address, and
then no file is asked for. An address that is written relative may still lead to an absolute one
when it is read from the directory of the text (`becomesAbsolute_iff`); these maps are asked for,
and they are the only ones at absolute addresses that are (`remote_maps_are_refused`,
`relative_address_is_read_remotely`).
-/

namespace StylePrint.SourceMap

open UrlPath

/-! ### Places of maps -/

/-- The place of the map that an address leads to from the text at `path`. -/
def placeOf (address path : String) : String :=
  join (directory path) address

/-- Whether an address that is written relative leads to an absolute one from the text at `path`:
the directory of the text is absolute without the slashes at its end, or the way on from it leads
down by a name that begins like a data address. -/
def BecomesAbsolute (address path : String) : Prop :=
  isAbsolute address = false ∧ isRooted address.toList = false ∧
    (isAbsolute (stem (directory path)) = true ∨
      LeadsIntoData (stem (directory path) ++ "/" ++ address).toList)

instance (address path : String) : Decidable (BecomesAbsolute address path) :=
  inferInstanceAs (Decidable (_ ∧ _ ∧ (_ ∨ LeadsIntoData _)))

variable {address path : String}

/-- An absolute address leads to itself from everywhere. -/
theorem placeOf_of_isAbsolute (h : isAbsolute address = true) (path : String) :
    placeOf address path = address := by
  have hchars : isAbsoluteChars address.toList = true := h
  rw [placeOf, join, joinChars, hchars, Bool.true_or, if_pos rfl, String.ofList_toList]

/-- **A relative address leads to an absolute one where it becomes one**, and nowhere else. -/
theorem becomesAbsolute_iff (h : isAbsolute address = false) :
    isAbsolute (placeOf address path) = true ↔ BecomesAbsolute address path := by
  have hplace : (placeOf address path).toList
      = joinChars (directoryChars path.toList) address.toList := by
    rw [placeOf, join, directory, String.toList_ofList, String.toList_ofList]
  have hstem : (stem (directory path)).toList = opening (directoryChars path.toList) := by
    rw [stem, directory, String.toList_ofList, String.toList_ofList, opening,
      if_neg (directoryChars_ne_nil path.toList)]
  rw [isAbsolute, hplace]
  cases hrooted : isRooted address.toList with
  | true =>
      have hrelative : ¬BecomesAbsolute address path := by
        rintro ⟨-, hrelative, -⟩
        rw [hrooted] at hrelative
        cases hrelative
      have haddress : isAbsoluteChars address.toList = false := h
      rw [joinChars_of_rooted hrooted, haddress]
      exact ⟨fun hfalse => absurd hfalse Bool.false_ne_true,
        fun hbecomes => absurd hbecomes hrelative⟩
  | false =>
      have hwhole : (stem (directory path) ++ "/" ++ address).toList
          = opening (directoryChars path.toList) ++ '/' :: address.toList := by
        simp [hstem]
      have hdirectory : isAbsolute (stem (directory path))
          = isAbsoluteChars (opening (directoryChars path.toList)) := congrArg isAbsoluteChars hstem
      rw [isAbsoluteChars_joinChars_iff h hrooted, BecomesAbsolute, hdirectory, hwhole]
      exact ⟨fun hcases => ⟨h, hrooted, hcases⟩, fun hbecomes => hbecomes.2.2⟩

/-! ### Refusal -/

variable {code : String} {reader : Reader}

/-- An absolute address that holds no map itself is refused, and nothing is asked for. -/
theorem run_linkedMap?_of_isAbsolute (hcode : LinkComment.address? code = some address)
    (hdata : isData address.toList = false) (h : isAbsolute address = true) :
    (linkedMap? code path).run.run reader = (.error (.remote address), []) := by
  rw [linkedMap?, hcode]
  show (some <$> load address path).run.run reader = _
  rw [load, if_neg (Bool.eq_false_iff.mp hdata), if_pos h]
  rfl

/-- The map of an address that is written relative is asked for at its place. -/
theorem asked_linkedMap?_of_relative (hcode : LinkComment.address? code = some address)
    (h : isAbsolute address = false) :
    (linkedMap? code path).run.asked reader = [placeOf address path] := by
  rw [asked_linkedMap?, needed?, hcode, Option.bind_some, neededFor?, h,
    if_neg Bool.false_ne_true]
  rfl

/-- Only for an address that is written relative anything is asked for, namely its place. -/
theorem mem_asked_linkedMap? {location : String} :
    location ∈ (linkedMap? code path).run.asked reader ↔
      ∃ address, LinkComment.address? code = some address ∧ isAbsolute address = false ∧
        location = placeOf address path := by
  rw [asked_linkedMap?, Option.mem_toList, needed?, Option.bind_eq_some_iff]
  refine exists_congr fun address => and_congr_right fun _ => ?_
  rw [neededFor?]
  cases isAbsolute address with
  | true =>
      constructor
      · intro hnone
        cases hnone
      · rintro ⟨hfalse, -⟩
        cases hfalse
  | false => exact ⟨fun h => ⟨rfl, (Option.some.inj h).symm⟩, fun h => congrArg some h.2.symm⟩

/-- **Maps at absolute addresses are refused, unless their address is written relative.** Whatever
the text at a path and whatever the reader, an absolute address is asked for exactly when the text
names a relative one that becomes absolute from the directory of the text. And when the place of the
map that the text names is absolute, and the annotation does not hold the map itself, then the map
is refused with nothing asked for exactly when its address does not become absolute in this way. -/
theorem remote_maps_are_refused (code path : String) (reader : Reader) :
    ((∃ location ∈ (linkedMap? code path).run.asked reader, isAbsolute location = true) ↔
      ∃ address, LinkComment.address? code = some address ∧ BecomesAbsolute address path) ∧
    ∀ address, LinkComment.address? code = some address → isData address.toList = false →
      isAbsolute (placeOf address path) = true →
      ((linkedMap? code path).run.run reader = (.error (.remote (placeOf address path)), []) ↔
        ¬BecomesAbsolute address path) := by
  constructor
  · constructor
    · rintro ⟨location, hasked, hlocation⟩
      obtain ⟨address, hcode, haddress, rfl⟩ := mem_asked_linkedMap?.mp hasked
      exact ⟨address, hcode, (becomesAbsolute_iff haddress).mp hlocation⟩
    · rintro ⟨address, hcode, hbecomes⟩
      exact ⟨placeOf address path, mem_asked_linkedMap?.mpr ⟨address, hcode, hbecomes.1, rfl⟩,
        (becomesAbsolute_iff hbecomes.1).mpr hbecomes⟩
  · intro address hcode hdata hplace
    cases haddress : isAbsolute address with
    | true =>
        rw [placeOf_of_isAbsolute haddress, run_linkedMap?_of_isAbsolute hcode hdata haddress]
        exact ⟨fun _ hbecomes => Bool.noConfusion (haddress.symm.trans hbecomes.1), fun _ => rfl⟩
    | false =>
        have hbecomes := (becomesAbsolute_iff haddress).mp hplace
        refine ⟨?_, fun h => absurd hbecomes h⟩
        intro hrun
        have hasked : (linkedMap? code path).run.asked reader = [placeOf address path] :=
          asked_linkedMap?_of_relative hcode haddress
        rw [Reading.asked, hrun] at hasked
        cases hasked

/-- A map on a host is refused, whatever the directory of the text. -/
theorem remote_maps_are_refused_of_host :
    let code := "a\n/*# sourceMappingURL=http://x.test/a.css.map */\n"
    let address := "http://x.test/a.css.map"
    (LinkComment.address? code = some address ∧ isData address.toList = false ∧
        isAbsolute (placeOf address "css/a.css") = true) ∧
      ∀ reader, (linkedMap? code "css/a.css").run.run reader = (.error (.remote address), []) := by
  intro code address
  have hcode : LinkComment.address? code = some address := by decide +kernel
  have hdata : isData address.toList = false := by decide +kernel
  have hplace : placeOf address "css/a.css" = address :=
    placeOf_of_isAbsolute (by decide +kernel) "css/a.css"
  have habsolute : isAbsolute (placeOf address "css/a.css") = true := by
    rw [hplace]
    decide +kernel
  refine ⟨⟨hcode, hdata, habsolute⟩, ?_⟩
  intro reader
  have hrelative : ¬BecomesAbsolute address "css/a.css" := by
    rintro ⟨haddress, -⟩
    revert haddress
    decide +kernel
  have hrefused := ((remote_maps_are_refused code "css/a.css" reader).2 address hcode hdata
    habsolute).mpr hrelative
  rwa [hplace] at hrefused

/-- The map beside a text on a host is asked for, and so is one whose name looks like a data
address. -/
theorem relative_address_is_read_remotely :
    let reader : Reader := fun _ => .error .notFound
    let step (address path : String) :=
      (linkedMap? ("/*# sourceMappingURL=" ++ address ++ " */") path).run.run reader
    (step "a.css.map" "http://x.test/a.css"
        = (.error (.read "http://x.test/a.css.map" .notFound), ["http://x.test/a.css.map"]) ∧
      isAbsolute "http://x.test/a.css.map" = true) ∧
    step "./data:a.css.map" "a.css"
        = (.error (.read "data:a.css.map" .notFound), ["data:a.css.map"]) ∧
      isAbsolute "data:a.css.map" = true := by
  decide +kernel

end StylePrint.SourceMap
