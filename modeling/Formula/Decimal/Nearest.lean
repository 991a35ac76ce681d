import Formula.Decimal

/-!
Rounding a fraction to binary64.

A finite non-negative binary64 number is a whole number of *units* of
`2 ^ -1074`, and its bits, read as a natural number, count the numbers below
it. `nearestBits` rounds `n / d` to the nearest of them, a tie going to the even
one; from halfway above the largest finite number on, that is infinity.

* `unitsOfBits`: the units a bit pattern stands for.
* `nearestBits`: the bits of the number nearest to a fraction.
* `Decimal.toFloat`: the number a decimal numeral denotes.
-/

namespace Formula

namespace Binary64

/-- How many numbers share an exponent: `2 ^ 52`. -/
def binade : Nat := Nat.pow 2 52

/-- How many units make one: `2 ^ 1074`. -/
def unitsPerOne : Nat := Nat.pow 2 1074

/-- The bits of positive infinity; every finite magnitude lies below. -/
def infinityBits : Nat := 2047 * binade

/-- The bit that marks negative numbers: `2 ^ 63`. -/
def signBit : Nat := Nat.pow 2 63

/-- The magnitude with the given bits, in units. -/
def unitsOfBits (bits : Nat) : Nat :=
  if bits < binade then bits
  else (binade + bits % binade) * Nat.pow 2 (bits / binade - 1)

/-- `n / d` rounded to the nearest whole number, a half going to the even one. -/
def roundHalfEven (n d : Nat) : Nat :=
  let low := n / d
  let rest := n % d
  if 2 * rest < d then low
  else if d < 2 * rest then low + 1
  else low + low % 2

/-- The bits of the binary64 number nearest to `n / d`. The quotient in units is
brought below `2 ^ 53` by `shift` halvings; each of them advances the bits by
one binade. -/
def nearestBits (n d : Nat) : Nat :=
  let units := n * unitsPerOne
  let shift := (units / d).log2 - 52
  min (shift * binade + roundHalfEven units (d * Nat.pow 2 shift)) infinityBits

end Binary64

namespace Decimal

/-- The bits of the binary64 number nearest to a decimal numeral. -/
def toBits (d : Decimal) : Nat := Binary64.nearestBits d.digits (Nat.pow 10 d.places)

/-- The binary64 number nearest to a decimal numeral. -/
def toFloat (d : Decimal) : Float := Float.ofBits (UInt64.ofNat d.toBits)

end Decimal

end Formula
