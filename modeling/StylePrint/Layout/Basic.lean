import StylePrint.Layout.Compact
import StylePrint.Layout.Readable
/-!
The two layouts a tree can be printed in.
-/

namespace StylePrint

/-- How a tree is laid out. -/
inductive Layout where
  | readable
  | compact
  deriving DecidableEq, Repr

/-- The steps in which a layout prints a node. -/
def Layout.steps : Layout → Sheet.Node → List Layout.Step
  | .readable, node => Layout.Readable.steps node
  | .compact, node => Layout.Compact.steps node

end StylePrint
