import Formula.Binding
import Formula.Expr

/-!
Expressions prepared for repeated evaluation.

A program is an expression in which every name has been replaced by its place
in a list of unknowns and the blocks have been dropped. Evaluating it needs no
names any more, only a list of values.

* `Program.ofExpr`: the program of an expression; the leftmost name that is not
  among the unknowns is reported.
* `Program.run`: the value of a program.
* `Compiled.evaluate`: the value of a compiled expression under some bindings.
-/

namespace Formula

/-- An expression over places in a list of values. -/
inductive Program where
  /-- A number. -/
  | constant (value : Float)
  /-- The value at a place. -/
  | slot (index : Nat)
  /-- A sign in front of an operand. -/
  | signed (sign : Sign) (operand : Program)
  /-- An operator between two operands. -/
  | binary (op : Operator) (left right : Program)
deriving DecidableEq, Repr

namespace Program

/-- The program of an expression. A name stands for its first place among the
unknowns. -/
def ofExpr (unknowns : List String) : Expr → Except Fault Program
  | .literal value _ => .ok (constant value)
  | .unknown name _ =>
      match unknowns.idxOf? name with
      | some index => .ok (slot index)
      | none => .error (.missingVariable name)
  | .block child _ => ofExpr unknowns child
  | .signed sign operand _ => do
      let operand ← ofExpr unknowns operand
      return signed sign operand
  | .binary op left right _ => do
      let left ← ofExpr unknowns left
      let right ← ofExpr unknowns right
      return binary op left right

/-- The value of a program. Places beyond the values count as zero. -/
def run (values : List Float) : Program → Float
  | constant value => value
  | slot index => values.getD index 0
  | signed sign operand => sign.apply (operand.run values)
  | binary op left right => op.apply (left.run values) (right.run values)

end Program

/-- An expression with its program and the unknowns whose places the program
speaks of. -/
structure Compiled where
  /-- The expression itself. -/
  expr : Expr
  /-- Its unknowns, in the order of their places. -/
  unknowns : List String
  /-- What is run. -/
  program : Program
deriving DecidableEq, Repr

namespace Compiled

/-- An expression compiled against a list of unknowns. -/
def ofExpr (expr : Expr) (unknowns : List String) : Except Fault Compiled := do
  let program ← Program.ofExpr unknowns expr
  return ⟨expr, unknowns, program⟩

/-- The value under some bindings, which have to fit the unknowns. -/
def evaluate (c : Compiled) (b : Bindings) : Except Fault Float := do
  let values ← b.resolve c.unknowns
  return c.program.run values

end Compiled

end Formula
