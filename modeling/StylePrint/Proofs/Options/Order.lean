import StylePrint.Proofs.Options
import StylePrint.Proofs.Outcome
/-!
The order in which options are read. A member of a JSON object is taken when its name is not known
or its value is of the kind the name asks for (`Options.Fits`), whatever was read before it, and
members of different names may change places. So the same members are read as the same options in
every order (`Options.ofJson_eq_ok_of_perm`), and which member is refused depends on nothing but
that member (`Options.exists_ofJson_iff`).

This is said of values other than `null`, which some options take for a missing value.
-/

namespace StylePrint

open Json (insertMember)

/-- The member of a JSON object that makes a choice. -/
def Setting.member : Setting → String × Json
  | .compress wanted => ("compress", .bool wanted)
  | .sourcemap form => ("sourcemap", form.toJson)
  | .indent unit => ("indent", .string unit)
  | .inputSourcemaps wanted => ("inputSourcemaps", .bool wanted)

namespace Options

/-- Whether a member has a value of the kind that its name asks for; other names take any value. -/
def Fits (member : String × Json) : Prop :=
  member.1 ∈ knownNames → ∃ setting : Setting, setting.member = member

/-! ### One member -/

theorem take_member (o : Options) (setting : Setting) :
    o.take setting.member.1 setting.member.2 = .ok (o.set setting) := by
  cases setting with
  | sourcemap form => cases form <;> rfl
  | _ => rfl

/-- Choices about different things may be made in either order. -/
theorem set_comm (o : Options) {first second : Setting}
    (h : first.member.1 ≠ second.member.1) :
    (o.set first).set second = (o.set second).set first := by
  cases first <;> cases second <;> grind [set, Setting.member]

theorem extra_insert_set (o : Options) (setting : Setting) (name : String) (value : Json) :
    ({ o with extra := insertMember name value o.extra } : Options).set setting
      = { o.set setting with extra := insertMember name value (o.set setting).extra } := by
  cases setting <;> rfl

variable {member other : String × Json}

/-- A member that fits makes a choice or has a name that is not known. -/
theorem Fits.choice_or_unknown (h : Fits member) :
    (∃ setting : Setting, setting.member = member) ∨ member.1 ∉ knownNames := by
  by_cases hname : member.1 ∈ knownNames
  · exact .inl (h hname)
  · exact .inr hname

theorem Fits.exists_take (h : Fits member) (o : Options) :
    ∃ taken, o.take member.1 member.2 = .ok taken := by
  rcases h.choice_or_unknown with ⟨setting, rfl⟩ | hname
  · exact ⟨_, take_member o setting⟩
  · exact ⟨_, take_unknown o hname member.2⟩

/-- A member that does not fit is refused, whatever was read before it. -/
theorem take_unfit (h : ¬Fits member) (hnull : member.2 ≠ .null) :
    ∃ fault, ∀ o : Options, o.take member.1 member.2 = .error fault := by
  obtain ⟨name, value⟩ := member
  have hunfit : ∀ setting : Setting, setting.member ≠ (name, value) := by
    intro setting hsetting
    exact h fun _ => ⟨setting, hsetting⟩
  have hname : name ∈ knownNames := by
    by_contra hname
    exact h fun hknown => absurd hknown hname
  simp only [knownNames, List.mem_cons, List.not_mem_nil, or_false] at hname
  rcases hname with rfl | rfl | rfl | rfl
  · cases value with
    | bool wanted => exact absurd rfl (hunfit (.compress wanted))
    | _ => exact ⟨.malformed, fun _ => rfl⟩
  · cases value with
    | bool wanted =>
        cases wanted with
        | true => exact absurd rfl (hunfit (.sourcemap .written))
        | false => exact absurd rfl (hunfit (.sourcemap .none))
    | string form =>
        by_cases hform : form = "generator"
        · subst hform
          exact absurd rfl (hunfit (.sourcemap .draft))
        · refine ⟨.unknownMapForm form, fun o => ?_⟩
          simp [take, MapForm.ofJson, hform, Except.map]
    | null => exact absurd rfl hnull
    | _ => exact ⟨.malformed, fun _ => rfl⟩
  · cases value with
    | string unit => exact absurd rfl (hunfit (.indent unit))
    | null => exact absurd rfl hnull
    | _ => exact ⟨.malformed, fun _ => rfl⟩
  · cases value with
    | bool wanted => exact absurd rfl (hunfit (.inputSourcemaps wanted))
    | _ => exact ⟨.malformed, fun _ => rfl⟩

/-- **Members of different names that fit may change places.** -/
theorem take_comm (h : Fits member) (hother : Fits other) (hne : member.1 ≠ other.1)
    (o : Options) :
    (o.take member.1 member.2).bind (·.take other.1 other.2)
      = (o.take other.1 other.2).bind (·.take member.1 member.2) := by
  rcases h.choice_or_unknown with ⟨setting, rfl⟩ | hname
  · rcases hother.choice_or_unknown with ⟨second, rfl⟩ | hname'
    · simp only [take_member, Except.bind, set_comm o hne]
    · simp only [take_member, take_unknown _ hname', Except.bind, extra_insert_set]
  · rcases hother.choice_or_unknown with ⟨second, rfl⟩ | hname'
    · simp only [take_member, take_unknown _ hname, Except.bind, extra_insert_set]
    · simp only [take_unknown _ hname, take_unknown _ hname', Except.bind,
        Json.insertMember_comm hne]

/-! ### All members -/

variable {members others : List (String × Json)}

theorem takeAll_cons_cons (o : Options) (first second : String × Json)
    (rest : List (String × Json)) :
    o.takeAll (first :: second :: rest)
      = ((o.take first.1 first.2).bind (·.take second.1 second.2)).bind (·.takeAll rest) := by
  rw [takeAll_cons]
  cases o.take first.1 first.2 with
  | error fault => rfl
  | ok taken => exact takeAll_cons taken second.1 second.2 rest

/-- Members of different names that fit are taken in any order. -/
theorem takeAll_perm (hperm : members.Perm others) (hnames : (members.map Prod.fst).Nodup)
    (hfits : ∀ member ∈ members, Fits member) (o : Options) :
    o.takeAll members = o.takeAll others := by
  induction hperm generalizing o with
  | nil => rfl
  | cons member hperm ih =>
      obtain ⟨name, value⟩ := member
      rw [takeAll_cons, takeAll_cons]
      exact congrArg _ (funext fun o => ih (List.nodup_cons.mp hnames).2
        (List.forall_mem_cons.mp hfits).2 o)
  | swap second first rest =>
      obtain ⟨hfirst, hsecond, -⟩ := List.forall_mem_cons.mp hfits |>.imp_right
        List.forall_mem_cons.mp
      have hne : first.1 ≠ second.1 := fun heq =>
        (List.nodup_cons.mp hnames).1 (heq ▸ List.mem_cons_self)
      rw [takeAll_cons_cons, takeAll_cons_cons, take_comm hfirst hsecond hne]
  | trans hperm _ ih ih' =>
      exact (ih hnames hfits o).trans (ih' ((hperm.map Prod.fst).nodup hnames)
        (fun member hmember => hfits member (hperm.mem_iff.mpr hmember)) o)

theorem exists_takeAll_iff (hnull : ∀ member ∈ members, member.2 ≠ .null) (o : Options) :
    (∃ read, o.takeAll members = .ok read) ↔ ∀ member ∈ members, Fits member := by
  induction members generalizing o with
  | nil => exact ⟨fun _ => nofun, fun _ => ⟨o, rfl⟩⟩
  | cons member rest ih =>
      obtain ⟨name, value⟩ := member
      obtain ⟨hvalue, hrest⟩ := List.forall_mem_cons.mp hnull
      rw [takeAll_cons, List.forall_mem_cons]
      by_cases hfits : Fits (name, value)
      · obtain ⟨taken, htaken⟩ := hfits.exists_take o
        rw [htaken]
        exact (ih hrest taken).trans (and_iff_right hfits).symm
      · obtain ⟨fault, hfault⟩ := take_unfit hfits hvalue
        rw [hfault o]
        exact ⟨nofun, fun h => absurd h.1 hfits⟩

/-- **An object is read as options exactly when all of its members fit.** -/
theorem exists_ofJson_iff (hnull : ∀ member ∈ members, member.2 ≠ .null) :
    (∃ o, ofJson (.object members) = .ok o) ↔ ∀ member ∈ members, Fits member :=
  exists_takeAll_iff hnull {}

/-- **The same members are read as the same options in every order.** -/
theorem ofJson_eq_ok_of_perm (hperm : members.Perm others)
    (hnames : (members.map Prod.fst).Nodup) (hnull : ∀ member ∈ members, member.2 ≠ .null)
    (o : Options) : ofJson (.object members) = .ok o ↔ ofJson (.object others) = .ok o := by
  by_cases hfits : ∀ member ∈ members, Fits member
  · exact Eq.congr_left (takeAll_perm hperm hnames hfits {})
  · have hfits' : ¬∀ member ∈ others, Fits member := fun h =>
      hfits fun member hmember => h member (hperm.mem_iff.mp hmember)
    have hnull' : ∀ member ∈ others, member.2 ≠ .null := fun member hmember =>
      hnull member (hperm.mem_iff.mpr hmember)
    constructor
    · exact fun h => absurd ((exists_ofJson_iff hnull).mp ⟨o, h⟩) hfits
    · exact fun h => absurd ((exists_ofJson_iff hnull').mp ⟨o, h⟩) hfits'

end Options

end StylePrint
