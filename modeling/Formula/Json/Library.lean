import Formula.Declaration
import Formula.Json.Parser
import Formula.Json.Printer

/-!
A library for JSON texts and declared enumerations, so that programs with JSON forms can
be run. What is proved of such forms holds with every lawful library.

* `Json.datum?`: what a field holds; a word may be written with a value that says
  nothing.
* `Json.encode`, `Json.decode?`: a value is an object with the member that tells its
  kind in front of one for each field. Each of them has to be there just once when it is
  read, in any order, and other members are ignored.
* `Json.library`: both, together with `Json.text` and `Json.ofText?`.
-/

namespace Formula.Json

/-- What a field of some shape holds if a value stands for it. -/
def datum? : Shape → Json → Option Datum
  | .count, json => (json.naturalBelow? UInt64.size).map .count
  | .character, json => json.character?.map .character
  | .text, json => json.string?.map .text
  | .word words, json => (json.memberWord?.filter (words.contains ·)).map .word

/-- The JSON form of a value of an enumeration. -/
def encode (e : Enumeration) (entry : Entry) : Json :=
  match e.variants.find? (·.kind == entry.kind) with
  | some v => object ((e.tag, string entry.kind) :: v.members entry.data)
  | none => null

/-- The value of an enumeration that has a JSON form. -/
def decode? (e : Enumeration) : Json → Option Entry
  | object members => do
      let kind ← (unique? e.tag members).bind string?
      let v ← e.variants.find? (·.kind == kind)
      let data ← v.fields.mapM fun f => (unique? f.name members).bind (datum? f.shape)
      return ⟨kind, data⟩
  | _ => none

/-- Texts and declared enumerations. -/
def library : Library where
  write := text
  read? := ofText?
  datum? := datum?
  encode := encode
  decode? := decode?

end Formula.Json
