import Formula.Json

/-!
Enumerations that have a JSON form.

The program declares an enumeration and no more: a library makes JSON of its
values and reads it. Here the library is a parameter.

* `Shape`, `Field`, `Variant`, `Enumeration`: what is declared.
* `Datum`, `Entry`: what a field holds, and a value of an enumeration.
* `Json.Library`: what is taken from a library.
-/

namespace Formula

/-- What a field may hold. -/
inductive Shape where
  /-- A natural number of 64 bits. -/
  | count
  /-- One character. -/
  | character
  /-- Any text. -/
  | text
  /-- One word out of several. -/
  | word (words : List String)
deriving DecidableEq, Repr

/-- What a field holds. -/
inductive Datum where
  | count (value : Nat)
  | character (value : Char)
  | text (value : String)
  | word (value : String)
deriving DecidableEq, Repr

/-- A field has a name and holds data of one shape. -/
structure Field where
  /-- The name of the member that stands for the field. -/
  name : String
  /-- What the field may hold. -/
  shape : Shape
deriving DecidableEq, Repr

/-- One kind of values. -/
structure Variant where
  /-- The word for the kind. -/
  kind : String
  /-- The fields of such a value, in order. -/
  fields : List Field
deriving DecidableEq, Repr

/-- Values of several kinds, of which each one names its kind. -/
structure Enumeration where
  /-- The name of the member that tells the kind. -/
  tag : String
  /-- The kinds. -/
  variants : List Variant
deriving DecidableEq, Repr

/-- A value of an enumeration. -/
structure Entry where
  /-- Its kind. -/
  kind : String
  /-- What its fields hold, in order. -/
  data : List Datum
deriving DecidableEq, Repr

/-- The JSON value that stands for what a field holds. -/
def Datum.json : Datum → Json
  | count n => .natural n
  | character c => .string (String.singleton c)
  | text s => .string s
  | word w => .string w

/-- The members that stand for the fields of a value. -/
def Variant.members (v : Variant) (data : List Datum) : List (String × Json) :=
  (v.fields.zip data).map fun p => (p.1.name, p.2.json)

/-- The names of the members that tell something about values of a kind. -/
def Enumeration.names (e : Enumeration) (kind : String) : List String :=
  e.tag :: (e.variants.filter (·.kind == kind)).flatMap fun v => v.fields.map Field.name

/-- What is taken from a library that writes and reads JSON texts and has been
told the declarations. -/
structure Json.Library where
  /-- The text of a value. -/
  write : Json → String
  /-- The value that a text consists of, with the members of an object in their order, also
  those that are repeated. -/
  read? : String → Option Json
  /-- What a field of some shape holds if a value stands for it. -/
  datum? : Shape → Json → Option Datum
  /-- The JSON form of a value of an enumeration. -/
  encode : Enumeration → Entry → Json
  /-- The value of an enumeration that has a JSON form. -/
  decode? : Enumeration → Json → Option Entry

end Formula
