import StylePrint.Layout.Step
/-!
The readable layout: each declaration on a line of its own, indented by its level, and a blank line
between the rules of a block.
-/

namespace StylePrint.Layout.Readable

open StylePrint.Sheet

/-- The steps of a statement. A declaration is marked behind its margin, a comment before it. -/
def statement (content : Statement) (position : Option Position) : List Step :=
  match content with
  | .declaration property value =>
    .margin :: marks position ++ [.text (property ++ ": " ++ value), .text ";"]
  | .comment text => marks position ++ [.margin, .text ("/*" ++ text ++ "*/")]
  | .charset value => marks position ++ [.text (atLine "charset" value)]
  | .customMedia name query =>
    marks position ++ [.text (atLine "custom-media" (name ++ " " ++ query))]
  | .atImport value => marks position ++ [.text (atLine "import" value)]
  | .atNamespace value => marks position ++ [.text (atLine "namespace" value)]

/-- What surrounds the nodes of a block. -/
structure Frame where
  /-- The steps before the mark. -/
  lead : List Step
  header : List Step
  opening : String
  /-- The text between two nodes. -/
  separator : String
  closing : List Step
  deriving DecidableEq, Repr

/-- The frame of a block of rules. -/
def ruleFrame (header opening : String) : Frame :=
  ⟨[], [.text header], opening, "\n\n", [.text "\n\x7d"]⟩

/-- The frame of a block of declarations at the outermost level. -/
def declarationFrame (header : String) : Frame :=
  ⟨[], [.text header], "\x7b\n", "\n", [.text "\n\x7d"]⟩

/-- The selectors of a rule, each on a line of its own. -/
def selectorLines (selectors : List String) : List Step :=
  [.text ",\n"].intercalate (selectors.map fun selector => [.margin, .text selector])

/-- The header of a page block: the selectors, when there are any, and a blank behind each part. -/
def pageHeader (selectors : List String) : String :=
  if selectors.isEmpty then "@page " else "@page " ++ ", ".intercalate selectors ++ " "

/-- The frame of a block; a stylesheet has none. -/
def frame? : Head → Option Frame
  | .stylesheet _ _ => none
  | .rule selectors =>
    some ⟨[], selectorLines selectors, " \x7b\n", "\n", [.text "\n", .margin, .text "\x7d"]⟩
  | .document address vendor => some (ruleFrame (atHeader vendor "document" address) "  \x7b\n")
  | .fontFace => some (declarationFrame "@font-face ")
  | .host => some (ruleFrame "@host" " \x7b\n")
  | .keyframes name vendor =>
    some ⟨[], [.text (atHeader vendor "keyframes" name)], " \x7b\n", "\n", [.text "\x7d"]⟩
  | .keyframe values =>
    some ⟨[.margin], [.text (", ".intercalate values)], " \x7b\n", "\n",
      [.text "\n", .margin, .text "\x7d\n"]⟩
  | .media query => some (ruleFrame (atHeader none "media" query) " \x7b\n")
  | .page selectors => some (declarationFrame (pageHeader selectors))
  | .supports condition => some (ruleFrame (atHeader none "supports" condition) " \x7b\n")

mutual

/-- The steps of a node. -/
def steps : Node → List Step
  | .statement content position => statement content position
  | .block head children position =>
    if vanishes head children then []
    else match frame? head with
      | none => separated "\n\n" children
      | some frame =>
        frame.lead ++ marks position ++ frame.header ++ [.text frame.opening, .nest]
          ++ separated frame.separator children ++ .unnest :: frame.closing

/-- The steps of nodes with a text between each two of them. -/
def separated (separator : String) : List Node → List Step
  | [] => []
  | [node] => steps node
  | node :: next :: rest => steps node ++ .text separator :: separated separator (next :: rest)

end

end StylePrint.Layout.Readable
