import Std.Data.HashMap
import Std.Data.TreeMap
import Formula.Fault

/-!
Values supplied for the unknowns of a formula.

Evaluation asks only two things of a set of values: how many names it binds,
and which value a name is bound to. Several containers answer them.

* `Bindings.ofList`, `Bindings.ofArray`: pairs in order; the first pair of a
  name counts, but every pair adds to the size.
* `Bindings.ofTreeMap`, `Bindings.ofHashMap`: maps, whose size is the number of
  distinct names.
* `Bindings.ofRef`: a reference to any of them, which passes both questions on.
* `Bindings.resolve`: the values of some unknowns in order, or the reason why
  the bindings do not fit them.
-/

namespace Formula

/-- What evaluation needs to know of a set of named values. -/
structure Bindings where
  /-- Number of bound names. -/
  size : Nat
  /-- The value a name is bound to. -/
  find? : String → Option Float

namespace Bindings

/-- Nothing is bound. -/
def isEmpty (b : Bindings) : Bool := b.size == 0

/-- Pairs of names and values. Repeated names count, and the first one wins. -/
def ofList (pairs : List (String × Float)) : Bindings :=
  ⟨pairs.length, fun name => (pairs.find? (·.1 == name)).map (·.2)⟩

/-- Pairs in an array, as in a list. -/
def ofArray (pairs : Array (String × Float)) : Bindings :=
  ⟨pairs.size, fun name => (pairs.find? (·.1 == name)).map (·.2)⟩

/-- The entries of an ordered map. -/
def ofTreeMap (map : Std.TreeMap String Float) : Bindings :=
  ⟨map.size, fun name => map[name]?⟩

/-- The entries of a hash map. -/
def ofHashMap (map : Std.HashMap String Float) : Bindings :=
  ⟨map.size, fun name => map[name]?⟩

/-- What is asked of a reference is asked of the bindings behind it. -/
def ofRef (b : Bindings) : Bindings := ⟨b.size, b.find?⟩

/-- The value of a name, or the complaint that it has none. -/
def get (b : Bindings) (name : String) : Except Fault Float :=
  match b.find? name with
  | some value => .ok value
  | none => .error (.missingVariable name)

/-- The values of the unknowns, in their order. The numbers of values and of
unknowns have to agree; then the first unknown without a value is reported. -/
def resolve (b : Bindings) (unknowns : List String) : Except Fault (List Float) :=
  if b.size = unknowns.length then unknowns.mapM b.get
  else .error (.arity unknowns.length b.size)

/-- Whether the bindings fit the unknowns. -/
def check (b : Bindings) (unknowns : List String) : Except Fault Unit :=
  (b.resolve unknowns).map fun _ => ()

end Bindings

end Formula
