/-!
The signs and binary operators of a formula and what they do to numbers.

Arithmetic is that of binary64: dividing by zero gives an infinity or a NaN,
and `^` is the power function of that arithmetic, with `x ^ 0 = 1` and
`1 ^ x = 1` for every `x`, NaN included.
-/

namespace Formula

/-- A sign in front of an operand. -/
inductive Sign where
  | plus
  | minus
deriving DecidableEq, Repr

namespace Sign

/-- A plus sign keeps the value, a minus sign negates it. -/
def apply : Sign → Float → Float
  | plus, x => x
  | minus, x => -x

/-- The character a sign is written with. -/
def symbol : Sign → Char
  | plus => '+'
  | minus => '-'

end Sign

/-- An operator between two operands. -/
inductive Operator where
  | add
  | sub
  | mul
  | div
  | pow
deriving DecidableEq, Repr

namespace Operator

/-- The value of `left op right`. -/
def apply : Operator → Float → Float → Float
  | add, x, y => x + y
  | sub, x, y => x - y
  | mul, x, y => x * y
  | div, x, y => x / y
  | pow, x, y => x ^ y

/-- The character an operator is written with. -/
def symbol : Operator → Char
  | add => '+'
  | sub => '-'
  | mul => '*'
  | div => '/'
  | pow => '^'

/-- The sign written with the same character, for `+` and `-`. -/
def sign? : Operator → Option Sign
  | add => some .plus
  | sub => some .minus
  | _ => none

end Operator

/-- The two ranks of operators that associate to the left. -/
inductive Rank where
  /-- `+` and `-`. -/
  | sum
  /-- `*` and `/`, which bind tighter. -/
  | product
deriving DecidableEq, Repr

/-- The rank of an operator that associates to the left, none for `^`. -/
def Operator.rank? : Operator → Option Rank
  | .add | .sub => some .sum
  | .mul | .div => some .product
  | .pow => none

end Formula
