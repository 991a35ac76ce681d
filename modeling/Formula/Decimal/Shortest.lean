import Formula.Decimal.Nearest

/-!
The shortest decimal numeral of a binary64 number.

On the grid of numerals with `n` significant digits only the two neighbours of
a number can be the closest to it. `shortest` takes the first `n` for which one
of them reads back as the number; if both do, it takes the nearer, and the
upper one on a tie.

* `Binary64.neighbours`: the two numerals around a number on a grid.
* `Binary64.shortest`: the numeral chosen.
* `Binary64.text`: how a number is written, without an exponent whatever its
  size.
-/

namespace Formula.Binary64

/-- Every positive magnitude is at least `10 ^ -scale`. -/
def scale : Nat := 340

/-- How many digits the magnitude with the given bits has when it is multiplied
by `10 ^ scale` and cut to a whole number. -/
def scaledLength (bits : Nat) : Nat :=
  (Nat.toDigits 10 (unitsOfBits bits * Nat.pow 10 scale / unitsPerOne)).length

/-- The numerals of `n` significant digits just below and just above a
magnitude, and whether it lies in the lower half of the gap. -/
def neighbours (bits n : Nat) : Decimal × Decimal × Bool :=
  let length := scaledLength bits
  let places := n + scale - length
  let step := Nat.pow 10 (length - scale - n)
  let num := unitsOfBits bits * Nat.pow 10 places
  let den := unitsPerOne * step
  let low := num / den
  (Decimal.trim ⟨low * step, places⟩, Decimal.trim ⟨(low + 1) * step, places⟩,
    2 * (num % den) < den)

/-- The numeral of `n` significant digits that reads back as the magnitude with
the given bits: of two the nearer, on a tie the upper. -/
def ofLength? (bits n : Nat) : Option Decimal :=
  let (low, high, lowIsNearer) := neighbours bits n
  if low.toBits = bits ∧ (lowIsNearer ∨ high.toBits ≠ bits) then some low
  else if high.toBits = bits then some high
  else none

/-- The magnitude with the given bits, written out to its last digit. -/
def exact (bits : Nat) : Decimal := Decimal.trim ⟨unitsOfBits bits * Nat.pow 5 1074, 1074⟩

/-- The shortest numeral that reads back as the magnitude with the given bits.
Seventeen digits suffice for every magnitude. -/
def shortest (bits : Nat) : Decimal :=
  ((List.range' 1 17).findSome? (ofLength? bits)).getD (exact bits)

/-- The text of the magnitude with the given bits. -/
def magnitudeText (bits : Nat) : List Char :=
  if bits < infinityBits then (shortest bits).toChars else "inf".toList

/-- A number in positional notation: a minus sign in front of negative numbers
and negative zero, `inf` for infinity, and `NaN`, which has no sign. -/
def text (x : Float) : String :=
  let bits := x.toBits.toNat
  if x.isNaN then "NaN"
  else if bits < signBit then String.ofList (magnitudeText bits)
  else String.ofList ('-' :: magnitudeText (bits - signBit))

end Formula.Binary64
