/-!
Decimal numerals: a natural number of which the last `places` digits stand
behind the point.

* `Decimal.toChars` writes a numeral positionally, with at least one digit in
  front of the point and no point when there are no places.
* `Decimal.ofDigits` makes a numeral of the digits around a point;
  `ofDigits_whole_fraction` says that this undoes the writing.
* `Decimal.trim` drops the zeros at the end of the places.
-/

namespace Formula

/-- The number `digits / 10 ^ places`. -/
structure Decimal where
  /-- The numeral without its point. -/
  digits : Nat
  /-- How many of the digits stand behind the point. -/
  places : Nat
deriving DecidableEq, Repr

namespace Decimal

/-- The numeral with the given digits before and behind its point. -/
def ofDigits (whole fraction : List Char) : Decimal :=
  ⟨Nat.ofDigitChars 10 (whole ++ fraction) 0, fraction.length⟩

/-- The digits of a numeral, filled up with leading zeros so that one stands in
front of the point. -/
def paddedDigits (d : Decimal) : List Char :=
  let written := Nat.toDigits 10 d.digits
  List.replicate (d.places + 1 - written.length) '0' ++ written

/-- The digits in front of the point. -/
def whole (d : Decimal) : List Char :=
  d.paddedDigits.take (d.paddedDigits.length - d.places)

/-- The digits behind the point. -/
def fraction (d : Decimal) : List Char :=
  d.paddedDigits.drop (d.paddedDigits.length - d.places)

/-- Positional notation. -/
def toChars (d : Decimal) : List Char :=
  if d.places = 0 then d.whole else d.whole ++ '.' :: d.fraction

/-- The numeral without zeros at the end of its places. -/
def trim (d : Decimal) : Decimal := go d.digits d.places
where
  go (digits : Nat) : Nat → Decimal
    | 0 => ⟨digits, 0⟩
    | places + 1 => if digits % 10 = 0 then go (digits / 10) places else ⟨digits, places + 1⟩

/-- Whole and fraction together are all the digits. -/
@[simp] theorem whole_append_fraction (d : Decimal) : d.whole ++ d.fraction = d.paddedDigits :=
  List.take_append_drop ..

/-- As many digits stand behind the point as the numeral has places. -/
@[simp] theorem length_fraction (d : Decimal) : d.fraction.length = d.places := by
  simp only [fraction, paddedDigits, List.length_drop, List.length_append, List.length_replicate]
  omega

/-- Reading the two halves of a written numeral gives the numeral back. -/
theorem ofDigits_whole_fraction (d : Decimal) : ofDigits d.whole d.fraction = d := by
  simp [ofDigits, paddedDigits, Nat.ofDigitChars_append]

end Decimal

end Formula
