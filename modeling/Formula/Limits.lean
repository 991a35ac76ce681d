/-!
Structural limits on a formula, checked while it is read.
-/

namespace Formula

/-- How large a formula may be: at most `maxTokens` tokens, and a tree with at
most `maxDepth` edges on any path from its root. -/
structure Limits where
  /-- Greatest height of the tree. -/
  maxDepth : Nat := 128
  /-- Greatest number of tokens. -/
  maxTokens : Nat := 4096
deriving DecidableEq, Repr

end Formula
