import StylePrint.Json.Written
import StylePrint.Proofs.Json.Scan
/-!
The text of a JSON value, read back. The tokens of a value spell its tree (`Json.ofTokens?_tokens`),
they nest as deep as the value (`Json.nesting_tokens`), and the tree has the value with the members
of its objects in ascending order of name (`Json.value?_written`). So a value can be read from its
text exactly when it nests no deeper than the reader goes (`Json.parse?_text`).
-/

namespace StylePrint.Json

/-! ### Views of a value -/

mutual

/-- The tree of a value's text. -/
def written : Json → Written
  | .null => .null
  | .bool b => .bool b
  | .number n => .number n.numeral
  | .string s => .string (some s)
  | .array items => .array (writtenItems items)
  | .object members => .object (writtenMembers members)

/-- The trees of the texts of items. -/
def writtenItems : List Json → List Written
  | [] => []
  | item :: rest => item.written :: writtenItems rest

/-- The trees of the texts of members. -/
def writtenMembers : List (String × Json) → List (Option String × Written)
  | [] => []
  | (name, value) :: rest => (some name, value.written) :: writtenMembers rest

end

mutual

/-- How deep arrays and objects nest in a value. -/
def depth : Json → Nat
  | .array items => depthOfItems items + 1
  | .object members => depthOfMembers members + 1
  | .null | .bool _ | .number _ | .string _ => 0

/-- How deep arrays and objects nest in items. -/
def depthOfItems : List Json → Nat
  | [] => 0
  | item :: rest => max item.depth (depthOfItems rest)

/-- How deep arrays and objects nest in members. -/
def depthOfMembers : List (String × Json) → Nat
  | [] => 0
  | (_, value) :: rest => max value.depth (depthOfMembers rest)

end

mutual

/-- A value with the members of all its objects in ascending order of name; of several members of
one name the last stays. -/
def settled : Json → Json
  | .null => .null
  | .bool b => .bool b
  | .number n => .number n
  | .string s => .string s
  | .array items => .array (settledItems items)
  | .object members => .object (sortMembers (settledMembers members))

/-- Items with the members of all their objects in ascending order of name. -/
def settledItems : List Json → List Json
  | [] => []
  | item :: rest => item.settled :: settledItems rest

/-- Members, where they stand, with those of all objects below them in ascending order of name. -/
def settledMembers : List (String × Json) → List (String × Json)
  | [] => []
  | (name, value) :: rest => (name, value.settled) :: settledMembers rest

end

/-! ### Nesting -/

namespace Token

/-- Counts a token: the depth behind it, and the greatest depth so far. -/
def tally (count : Nat × Nat) (token : Token) : Nat × Nat :=
  (depthAfter count.1 token, max count.2 (depthAfter count.1 token))

theorem nesting_eq (tokens : List Token) : nesting tokens = (tokens.foldl tally (0, 0)).2 := rfl

theorem tally_opened (d most : Nat) :
    tally (d, most) .openBracket = (d + 1, max most (d + 1)) ∧
      tally (d, most) .openBrace = (d + 1, max most (d + 1)) := ⟨rfl, rfl⟩

theorem tally_closed (d most : Nat) :
    tally (d + 1, most) .closeBracket = (d, max most d) ∧
      tally (d + 1, most) .closeBrace = (d, max most d) := ⟨rfl, rfl⟩

theorem tally_separated (d most : Nat) :
    tally (d, most) .comma = (d, max most d) ∧ tally (d, most) .colon = (d, max most d) :=
  ⟨rfl, rfl⟩

theorem tally_string (d most : Nat) (text : Option String) :
    tally (d, most) (.string text) = (d, max most d) := rfl

mutual

/-- The tokens of a value leave the depth as it is, and reach that of the value below it. -/
theorem tally_tokens (d : Nat) : ∀ (j : Json) (most : Nat),
    j.tokens.foldl tally (d, most) = (d, max most (d + j.depth))
  | .null, _ | .bool _, _ | .number _, _ | .string _, _ => rfl
  | .array [], most => by
      simp only [tokens, List.foldl_cons, List.foldl_nil, tally_opened, tally_closed, depth,
        depthOfItems, Prod.mk.injEq, true_and]
      omega
  | .array (item :: items), most => by
      simp only [tokens, List.cons_append, List.foldl_cons, List.foldl_append, List.foldl_nil,
        tally_opened, tally_tokens (d + 1) item, depth, depthOfItems]
      rw [tally_itemTokens d items _ (by omega), (tally_closed ..).1, Prod.mk.injEq]
      omega
  | .object [], most => by
      simp only [tokens, List.foldl_cons, List.foldl_nil, tally_opened, tally_closed, depth,
        depthOfMembers, Prod.mk.injEq, true_and]
      omega
  | .object ((name, value) :: members), most => by
      simp only [tokens, List.cons_append, List.foldl_cons, List.foldl_append, List.foldl_nil,
        tally_opened, tally_separated, tally_string, tally_tokens (d + 1) value, depth,
        depthOfMembers]
      rw [tally_memberTokens d members _ (by omega), (tally_closed ..).2, Prod.mk.injEq]
      omega

/-- The items after the first are counted one level further in. -/
theorem tally_itemTokens (d : Nat) : ∀ (items : List Json) (most : Nat), d + 1 ≤ most →
    (itemTokens items).foldl tally (d + 1, most) = (d + 1, max most (d + 1 + depthOfItems items))
  | [], most, h => by
      simp only [itemTokens, List.foldl_nil, depthOfItems, Prod.mk.injEq, true_and]
      omega
  | item :: items, most, h => by
      simp only [itemTokens, List.cons_append, List.foldl_cons, List.foldl_append, tally_separated,
        tally_tokens (d + 1) item, depthOfItems]
      rw [tally_itemTokens d items _ (by omega), Prod.mk.injEq]
      omega

/-- The members after the first are counted one level further in. -/
theorem tally_memberTokens (d : Nat) :
    ∀ (members : List (String × Json)) (most : Nat), d + 1 ≤ most →
      (memberTokens members).foldl tally (d + 1, most)
        = (d + 1, max most (d + 1 + depthOfMembers members))
  | [], most, h => by
      simp only [memberTokens, List.foldl_nil, depthOfMembers, Prod.mk.injEq, true_and]
      omega
  | (name, value) :: members, most, h => by
      simp only [memberTokens, List.cons_append, List.foldl_cons, List.foldl_append,
        tally_separated, tally_string, tally_tokens (d + 1) value, depthOfMembers]
      rw [tally_memberTokens d members _ (by omega), Prod.mk.injEq]
      omega

end

end Token

/-- **The tokens of a value nest as deep as the value.** -/
theorem nesting_tokens (j : Json) : Token.nesting j.tokens = j.depth := by
  rw [Token.nesting_eq, Token.tally_tokens]
  simp

/-! ### Trees -/

namespace Written

/-- Takes tokens one after another. -/
def Progress.take (p : Progress) (tokens : List Token) : Option Progress :=
  tokens.foldlM Progress.step p

theorem Progress.take_cons (p : Progress) (token : Token) (rest : List Token) :
    p.take (token :: rest) = (p.step token).bind fun p => p.take rest := by
  rw [take, List.foldlM_cons]
  rfl

/-- A value never begins with a closing bracket. -/
theorem tokens_eq_cons (j : Json) :
    ∃ token rest, j.tokens = token :: rest ∧ token ≠ .closeBracket := by
  cases j with
  | array items => cases items <;> exact ⟨_, _, rfl, nofun⟩
  | object members =>
      rcases members with _ | ⟨⟨name, value⟩, members⟩
      · exact ⟨_, _, rfl, nofun⟩
      · exact ⟨_, _, rfl, nofun⟩
  | _ => exact ⟨_, _, rfl, nofun⟩

/-- Behind an opening bracket a value is taken as anywhere else. -/
theorem take_valueOrClose (frames : List Frame) (j : Json) (rest : List Token) :
    (Progress.reading frames .valueOrClose).take (j.tokens ++ rest)
      = (Progress.reading frames .value).take (j.tokens ++ rest) := by
  obtain ⟨token, more, htokens, hopen⟩ := tokens_eq_cons j
  have hstep : (Progress.reading frames .valueOrClose).step token
      = (Progress.reading frames .value).step token := if_neg hopen
  rw [htokens, List.cons_append, Progress.take_cons, Progress.take_cons, hstep]

mutual

/-- The tokens of a value hand over its tree. -/
theorem take_tokens (frames : List Frame) (rest : List Token) : ∀ j : Json,
    (Progress.reading frames .value).take (j.tokens ++ rest)
      = (deliver j.written frames).bind fun p => p.take rest
  | .null | .bool _ | .number _ | .string _ => Progress.take_cons ..
  | .array [] => Progress.take_cons ..
  | .array (item :: items) => by
      have hitem := take_tokens (.array [] :: frames) (itemTokens items ++ .closeBracket :: rest)
        item
      have hitems := take_itemTokens frames [item.written] rest items
      rw [tokens, List.append_assoc, List.cons_append, List.cons_append, List.append_assoc]
      refine (take_valueOrClose (.array [] :: frames) item _).trans (hitem.trans ?_)
      refine hitems.trans ?_
      rw [List.reverse_cons, List.reverse_nil, List.nil_append]
      rfl
  | .object [] => Progress.take_cons ..
  | .object ((name, value) :: members) => by
      have hvalue := take_tokens (.member [] (some name) :: frames)
        (memberTokens members ++ .closeBrace :: rest) value
      have hmembers := take_memberTokens frames [(some name, value.written)] rest members
      rw [tokens, List.append_assoc, List.cons_append, List.cons_append, List.cons_append,
        List.cons_append, List.cons_append, List.cons_append, List.append_assoc]
      refine Eq.trans ?_ (hvalue.trans ?_)
      · rfl
      · refine hmembers.trans ?_
        rw [List.reverse_cons, List.reverse_nil, List.nil_append]
        rfl

/-- The items after the first join those before them, and the closing bracket hands over the
array. -/
theorem take_itemTokens (frames : List Frame) (done : List Written) (rest : List Token) :
    ∀ items : List Json,
      (Progress.reading (.array done :: frames) .commaOrClose).take
          (itemTokens items ++ .closeBracket :: rest)
        = (deliver (.array (done.reverse ++ writtenItems items)) frames).bind fun p => p.take rest
  | [] => by
      rw [writtenItems, List.append_nil]
      exact Progress.take_cons ..
  | item :: items => by
      have hitem := take_tokens (.array done :: frames) (itemTokens items ++ .closeBracket :: rest)
        item
      have hitems := take_itemTokens frames (item.written :: done) rest items
      rw [List.reverse_cons, List.append_assoc, List.singleton_append] at hitems
      rw [itemTokens, List.cons_append, List.cons_append, List.append_assoc, Progress.take_cons]
      exact hitem.trans hitems

/-- The members after the first join those before them, and the closing brace hands over the
object. -/
theorem take_memberTokens (frames : List Frame) (done : List (Option String × Written))
    (rest : List Token) : ∀ members : List (String × Json),
      (Progress.reading (.object done :: frames) .commaOrClose).take
          (memberTokens members ++ .closeBrace :: rest)
        = (deliver (.object (done.reverse ++ writtenMembers members)) frames).bind
          fun p => p.take rest
  | [] => by
      rw [writtenMembers, List.append_nil]
      exact Progress.take_cons ..
  | (name, value) :: members => by
      have hvalue := take_tokens (.member done (some name) :: frames)
        (memberTokens members ++ .closeBrace :: rest) value
      have hmembers := take_memberTokens frames ((some name, value.written) :: done) rest members
      rw [List.reverse_cons, List.append_assoc, List.singleton_append] at hmembers
      rw [memberTokens, List.cons_append, List.cons_append, List.cons_append, List.cons_append,
        List.cons_append, List.cons_append, List.append_assoc]
      refine Eq.trans ?_ (hvalue.trans hmembers)
      rfl

end

/-- **The tokens of a value spell its tree.** -/
theorem ofTokens?_tokens (j : Json) : ofTokens? j.tokens = some j.written := by
  have htake := take_tokens [] [] j
  rw [List.append_nil] at htake
  have hfold : j.tokens.foldlM Progress.step (.reading [] .value) = some (.finished j.written) :=
    htake
  rw [ofTokens?, hfold]

end Written

/-! ### Values -/

mutual

/-- A value is exact when its numbers are integers of at most 64 bits and no object in it has two
members of one name. -/
def Exact : Json → Prop
  | .number n => n.Exact
  | .array items => ExactItems items
  | .object members => (members.map Prod.fst).Nodup ∧ ExactMembers members
  | .null | .bool _ | .string _ => True

/-- Whether items are exact. -/
def ExactItems : List Json → Prop
  | [] => True
  | item :: rest => item.Exact ∧ ExactItems rest

/-- Whether the values of members are exact. -/
def ExactMembers : List (String × Json) → Prop
  | [] => True
  | (_, value) :: rest => value.Exact ∧ ExactMembers rest

end

mutual

/-- The tree of a value's text has the value, with the members of its objects in order. -/
theorem value?_written : ∀ j : Json, j.Exact → j.written.value? = some j.settled
  | .null, _ | .bool _, _ | .string _, _ => rfl
  | .number (.integer value), h => by
      rw [written, Written.value?, Number.numeral, Numeral.number?_ofInt h]
      rfl
  | .array items, h => by
      rw [written, Written.value?, itemValues?_written items h]
      rfl
  | .object members, h => by
      rw [written, Written.value?, memberValues?_written members h.2]
      rfl

theorem itemValues?_written : ∀ items : List Json, ExactItems items →
    Written.itemValues? (writtenItems items) = some (settledItems items)
  | [], _ => rfl
  | item :: items, h => by
      rw [writtenItems, Written.itemValues?, value?_written item h.1, itemValues?_written items h.2]
      rfl

theorem memberValues?_written : ∀ members : List (String × Json), ExactMembers members →
    Written.memberValues? (writtenMembers members) = some (settledMembers members)
  | [], _ => rfl
  | (name, value) :: members, h => by
      rw [writtenMembers, Written.memberValues?, value?_written value h.1,
        memberValues?_written members h.2]
      rfl

end

/-- **A value is read from its text**, with the members of its objects in ascending order of name,
exactly when it nests no deeper than the reader goes. -/
theorem parse?_text {j : Json} (h : j.Exact) :
    parse? j.text = if j.depth ≤ maxNesting then some j.settled else none := by
  rw [parse?, text, String.toList_ofList, scan?_chars j]
  simp only [Option.bind_eq_bind, Option.bind_some, nesting_tokens, Written.ofTokens?_tokens,
    value?_written j h]

end StylePrint.Json
