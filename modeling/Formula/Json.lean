/-!
JSON values.

Numbers of 64 bits that are written with digits alone are kept as natural numbers;
all other numbers are kept as they are written.

* `Json.unique?`: the value of a member that occurs exactly once.
* `Json.naturalBelow?`, `Json.string?`, `Json.character?`, `Json.word?`,
  `Json.memberWord?`: the reading of a value as something simpler.
-/

namespace Formula

/-- A JSON value. -/
inductive Json where
  | null
  | bool (value : Bool)
  /-- A number of 64 bits, written with digits alone. -/
  | natural (value : Nat)
  /-- Any other number, as written. -/
  | number (numeral : String)
  | string (value : String)
  | array (items : List Json)
  /-- Members with their names, in order. -/
  | object (members : List (String × Json))
deriving Repr

namespace Json

/-- The value of the member with the given name, if there is exactly one. -/
def unique? (name : String) (members : List (String × Json)) : Option Json :=
  match members.filter (·.1 == name) with
  | [(_, value)] => some value
  | _ => none

/-- A natural number below a bound. -/
def naturalBelow? (bound : Nat) : Json → Option Nat
  | natural n => if n < bound then some n else none
  | _ => none

/-- A string. -/
def string? : Json → Option String
  | string value => some value
  | _ => none

/-- A string of exactly one character. -/
def character? (json : Json) : Option Char :=
  match json.string?.map String.toList with
  | some [c] => some c
  | _ => none

/-- One word out of several: a string, or an object that has the word as its one
member, with the value null. -/
def word? : Json → Option String
  | string word => some word
  | object [(word, null)] => some word
  | _ => none

/-- One word out of several where it is the value of a member: the word may also
be the one member of an object with an empty object as its value. -/
def memberWord? : Json → Option String
  | object [(word, object [])] => some word
  | json => json.word?

end Json

end Formula
