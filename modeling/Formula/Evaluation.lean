import Formula.Binding
import Formula.Expr

/-!
Evaluating a tree directly, by looking up each name where it occurs.

* `Expr.value`: the value of a tree under some bindings; the leftmost name
  without a value is reported.
* `Expr.evaluate`: the same after the bindings have been held against a list of
  unknowns.
-/

namespace Formula.Expr

/-- The value of a tree, operands before operators and left before right. -/
def value (b : Bindings) : Expr → Except Fault Float
  | literal x _ => .ok x
  | unknown name _ => b.get name
  | block child _ => child.value b
  | signed sign operand _ => do
      let x ← operand.value b
      return sign.apply x
  | binary op left right _ => do
      let x ← left.value b
      let y ← right.value b
      return op.apply x y

/-- The value of a tree whose unknowns are the given ones. -/
def evaluate (e : Expr) (unknowns : List String) (b : Bindings) : Except Fault Float := do
  b.check unknowns
  e.value b

end Formula.Expr
