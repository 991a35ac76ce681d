import Formula.Decimal.Shortest
import Formula.Operator
import Formula.Span

/-!
Expression trees.

Each node carries the span of its source text. Parentheses of the source stay
in the tree as blocks, so that a tree can be written out again; a block has the
value of what it holds.

* `Expr.text`: the canonical source of a tree.
* `Expr.nodeCount`, `Expr.height`: its size.
* `Expr.deepest`: the node furthest from the root, found with an explicit list
  of nodes still to visit, the leftmost one if several are as far.
-/

namespace Formula

/-- An expression. -/
inductive Expr where
  /-- A number. -/
  | literal (value : Float) (span : Span)
  /-- A name that stands for a value supplied later. -/
  | unknown (name : String) (span : Span)
  /-- An expression in parentheses. -/
  | block (child : Expr) (span : Span)
  /-- A sign in front of an operand. -/
  | signed (sign : Sign) (operand : Expr) (span : Span)
  /-- An operator between two operands. -/
  | binary (op : Operator) (left right : Expr) (span : Span)
deriving DecidableEq, Repr

namespace Expr

/-- Where the text of an expression stands. -/
def span : Expr → Span
  | literal _ span | unknown _ span | block _ span | signed _ _ span | binary _ _ _ span => span

/-- Canonical source: single spaces around operators, none behind signs, and the
parentheses of the blocks. -/
def text : Expr → String
  | literal value _ => Binary64.text value
  | unknown name _ => name
  | block child _ => "(" ++ child.text ++ ")"
  | signed sign operand _ => String.singleton sign.symbol ++ operand.text
  | binary op left right _ =>
      left.text ++ " " ++ String.singleton op.symbol ++ " " ++ right.text

/-- Number of nodes. -/
def nodeCount : Expr → Nat
  | literal .. | unknown .. => 1
  | block child _ => 1 + child.nodeCount
  | signed _ operand _ => 1 + operand.nodeCount
  | binary _ left right _ => 1 + left.nodeCount + right.nodeCount

/-- Number of edges on a longest path from the root. -/
def height : Expr → Nat
  | literal .. | unknown .. => 0
  | block child _ => 1 + child.height
  | signed _ operand _ => 1 + operand.height
  | binary _ left right _ => 1 + max left.height right.height

/-- The children of a node, from left to right. -/
def children : Expr → List Expr
  | literal .. | unknown .. => []
  | block child _ => [child]
  | signed _ operand _ => [operand]
  | binary _ left right _ => [left, right]

/-! ### The deepest node -/

/-- Number of nodes in the expressions still to visit, each with its distance
from the root. -/
def pendingNodes : List (Nat × Expr) → Nat
  | [] => 0
  | (_, e) :: pending => e.nodeCount + pendingNodes pending

/-- Visiting a node leaves one node less to visit. -/
theorem pendingNodes_children (e : Expr) (depth : Nat) (pending : List (Nat × Expr)) :
    pendingNodes (e.children.map (depth, ·) ++ pending) + 1
      = pendingNodes ((depth, e) :: pending) := by
  cases e <;> simp only [children, nodeCount, pendingNodes, List.map_cons, List.map_nil,
    List.cons_append, List.nil_append] <;> omega

/-- The deepest node among those still to visit, each with its distance from the
root, and the best one so far, which only a greater distance replaces. -/
def deepestFrom (best : Nat × Expr) : List (Nat × Expr) → Nat × Expr
  | [] => best
  | (depth, e) :: pending =>
      deepestFrom (if depth > best.1 then (depth, e) else best)
        (e.children.map (depth + 1, ·) ++ pending)
termination_by pending => pendingNodes pending
decreasing_by
  have := pendingNodes_children e (depth + 1) pending
  simp only [pendingNodes] at this ⊢
  omega

/-- The node furthest from the root, with its distance. -/
def deepest (e : Expr) : Nat × Expr := deepestFrom (0, e) [(0, e)]

end Expr

end Formula
