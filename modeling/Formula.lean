import Formula.Analysis
import Formula.Encoding
import Formula.Json.Library
import Formula.Proofs.Compilation
import Formula.Proofs.DepthLimit
import Formula.Proofs.Acceptance
import Formula.Proofs.FaultOrder
import Formula.Proofs.Bits
import Formula.Proofs.Canonical
import Formula.Proofs.Enclosure
import Formula.Proofs.Substitution
import Formula.Proofs.Leaves
import Formula.Proofs.Place
import Formula.Proofs.Tiling
import Formula.Proofs.Spacing
import Formula.Proofs.Blocks
import Formula.Proofs.Viability
import Formula.Proofs.Groups
import Formula.Proofs.Caret
import Formula.Proofs.Resolution
import Formula.Proofs.Confinement
import Formula.Proofs.Record
import Formula.Proofs.Descent
import Formula.Proofs.Rereading
import Formula.Proofs.FaultText
import Formula.Proofs.Words
import Formula.Proofs.Slots
