import StylePrint.Json.Record
/-!
Mappings: a place in generated text, and for most of them the place in a source that it came from.

Lines begin at one and columns at zero; both are 32-bit words. A mapping names a source exactly
when it has a place in it, and may carry a name only then, so the three form one `Origin`.
-/

namespace StylePrint

/-! ### Saturating words -/

/-- The 32-bit word nearest to a natural number. -/
def saturate (n : Nat) : UInt32 :=
  UInt32.ofNat (min n 4294967295)

@[simp] theorem toNat_saturate (n : Nat) : (saturate n).toNat = min n 4294967295 := by
  simp only [saturate, UInt32.toNat_ofNat']
  omega

namespace SourceMap

/-! ### Places -/

/-- A place in text: a line from one on, a column from zero on, in UTF-16 code units. -/
structure Place where
  line : UInt32
  column : UInt32
  deriving DecidableEq, Repr

namespace Place

/-- The order of places: by line, then by column. -/
def order (a b : Place) : Ordering :=
  (compare a.line b.line).then (compare a.column b.column)

/-- Reads a place. -/
def ofJson? (j : Json) : Option Place := do
  let field ← j.fields? ["line", "column"]
  let line ← Json.required Json.word? (field "line")
  let column ← Json.required Json.word? (field "column")
  return { line, column }

end Place

/-! ### Mappings -/

/-- Where a generated place came from. -/
structure Origin where
  source : String
  place : Place
  name : Option String
  deriving DecidableEq, Repr

/-- A place of the generated text, with its origin if it has one. -/
structure Mapping where
  generated : Place
  origin : Option Origin
  deriving DecidableEq, Repr

namespace Mapping

/-- The source a mapping names. -/
def source (m : Mapping) : Option String := m.origin.map Origin.source

/-- The place in its source that a mapping names. -/
def sourcePlace (m : Mapping) : Option Place := m.origin.map Origin.place

/-- The name a mapping carries. -/
def name (m : Mapping) : Option String := m.origin.bind Origin.name

/-- The order of optional texts in which a missing one comes last. -/
def orderMissingLast : Option String → Option String → Ordering
  | none, none => .eq
  | none, some _ => .gt
  | some _, none => .lt
  | some a, some b => compare a b

/-- The order of optional places in which a missing one comes first. -/
def orderMissingFirst : Option Place → Option Place → Ordering
  | none, none => .eq
  | none, some _ => .lt
  | some _, none => .gt
  | some a, some b => a.order b

/-- The order in which mappings are written: by generated place, then source, place in it and
name; a missing source or name comes after any other. -/
def order (a b : Mapping) : Ordering :=
  (((a.generated.order b.generated).then (orderMissingLast a.source b.source)).then
    (orderMissingFirst a.sourcePlace b.sourcePlace)).then (orderMissingLast a.name b.name)

end Mapping

/-! ### Proposed mappings -/

/-- A mapping as a caller states it, before it is checked. -/
structure Proposal where
  generated : Place
  sourcePlace : Option Place
  source : Option String
  name : Option String
  deriving DecidableEq, Repr

/-- Why a proposed mapping is refused. -/
inductive MappingFault where
  | generatedLineZero (column : UInt32)
  | sourceLineZero (generated : Place)
  | placeWithoutSource (generated : Place)
  | sourceWithoutPlace (generated : Place)
  /-- A column that is counted from one is zero. -/
  | sourceColumnZero (line column : UInt32)
  deriving DecidableEq, Repr

/-- A line and a column as messages write them. -/
def pairText (line column : UInt32) : String :=
  toString line.toNat ++ ":" ++ toString column.toNat

/-- The wording of a refusal. -/
def MappingFault.message : MappingFault → String
  | .generatedLineZero column =>
    "generated line must be at least 1 (column " ++ toString column.toNat ++ ")"
  | .sourceLineZero generated =>
    "original line must be at least 1 (generated " ++ pairText generated.line generated.column
      ++ ")"
  | .placeWithoutSource generated =>
    "original position without a source (generated " ++ pairText generated.line generated.column
      ++ ")"
  | .sourceWithoutPlace generated =>
    "source or name without an original position (generated "
      ++ pairText generated.line generated.column ++ ")"
  | .sourceColumnZero line column =>
    "original column must start at 1 (got " ++ pairText line column ++ ")"

namespace Proposal

/-- Reads a proposed mapping. In an array all four fields have to be present. -/
def ofJson? (j : Json) : Option Proposal := do
  let field ← j.fields? ["generated", "original", "source", "name"]
  match j with
  | .array items => guard (items.length = 4)
  | _ => pure ()
  let generated ← Json.required Place.ofJson? (field "generated")
  let sourcePlace ← Json.optional Place.ofJson? (field "original")
  let source ← Json.optional Json.string? (field "source")
  let name ← Json.optional Json.string? (field "name")
  return { generated, sourcePlace, source, name }

/-- Checks a proposed mapping: lines begin at one, and a source goes with a place in it. -/
def check (p : Proposal) : Except MappingFault Mapping :=
  if p.generated.line = 0 then .error (.generatedLineZero p.generated.column)
  else match p.sourcePlace with
    | some place =>
      if place.line = 0 then .error (.sourceLineZero p.generated)
      else match p.source with
        | some source => .ok ⟨p.generated, some ⟨source, place, p.name⟩⟩
        | none => .error (.placeWithoutSource p.generated)
    | none =>
      if p.source.isSome ∨ p.name.isSome then .error (.sourceWithoutPlace p.generated)
      else .ok ⟨p.generated, none⟩

end Proposal

end SourceMap

end StylePrint
