import StylePrint.Layout.Step
/-!
The compact layout: no optional white space and no comments. A comment still leaves its mark.
-/

namespace StylePrint.Layout.Compact

open StylePrint.Sheet

/-- The text of a statement. -/
def statementText : Statement → List Step
  | .declaration property value => [.text (property ++ ":" ++ value), .text ";"]
  | .comment _ => []
  | .charset value => [.text (atLine "charset" value)]
  | .customMedia name query => [.text (atLine "custom-media" (name ++ " " ++ query))]
  | .atImport value => [.text (atLine "import" value)]
  | .atNamespace value => [.text (atLine "namespace" value)]

/-- The header of a block; a stylesheet has none. -/
def header? : Head → Option String
  | .stylesheet _ _ => none
  | .rule selectors => some (",".intercalate selectors)
  | .document address vendor => some (atHeader vendor "document" address)
  | .fontFace => some "@font-face"
  | .host => some "@host"
  | .keyframes name vendor => some (atHeader vendor "keyframes" name)
  | .keyframe values => some (",".intercalate values)
  | .media query => some (atHeader none "media" query)
  | .page selectors => some ("@page " ++ ", ".intercalate selectors)
  | .supports condition => some (atHeader none "supports" condition)

mutual

/-- The steps of a node. -/
def steps : Node → List Step
  | .statement content position => marks position ++ statementText content
  | .block head children position =>
    if vanishes head children then []
    else match header? head with
      | none => all children
      | some header =>
        marks position ++ [.text header, .text "\x7b"] ++ all children ++ [.text "\x7d"]

/-- The steps of nodes, one after another. -/
def all : List Node → List Step
  | [] => []
  | node :: rest => steps node ++ all rest

end

end StylePrint.Layout.Compact
