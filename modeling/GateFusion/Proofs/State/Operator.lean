import GateFusion.Proofs.Exact
import GateFusion.Proofs.State.Bits
import Mathlib.Algebra.BigOperators.Ring.Finset
import Mathlib.Algebra.BigOperators.Group.Finset.Sigma

/-!
# Gates as operators

A matrix on some qubits acts on amplitudes: a new amplitude is the sum, over the states of those
qubits, of the old ones times the row of the matrix. Matrices on the same qubits act like their
product, and matrices on other qubits commute.
-/

namespace GateFusion
open GateMatrix
variable {α : Type} [Exact α]

/-- The amplitudes after a matrix has acted on qubits. -/
def act (qs : List Qubit) (m : Nat → Nat → Cartesian α) (amp : Nat → Cartesian α) (i : Nat) :
    Cartesian α :=
  ∑ c ∈ Finset.range (2 ^ qs.length), m (gather qs i) c * amp (patch qs i c)

section Act
variable {qs : List Qubit} (hn : qs.Nodup) (a b : Nat → Nat → Cartesian α)
  (amp : Nat → Cartesian α)

/-- Only the places of a matrix matter. -/
lemma act_congr {a b : Nat → Nat → Cartesian α}
    (h : ∀ r c, r < 2 ^ qs.length → c < 2 ^ qs.length → a r c = b r c) :
    act qs a amp = act qs b amp := by
  funext i
  refine Finset.sum_congr rfl fun c hc => ?_
  rw [h _ _ (gather_lt qs i) (Finset.mem_range.mp hc)]

include hn

/-- Acting twice on the same qubits is acting with the product. -/
theorem act_act : act qs a (act qs b amp) =
    act qs (fun r c => ∑ k ∈ Finset.range (2 ^ qs.length), a r k * b k c) amp := by
  funext i
  have hinner : ∀ k ∈ Finset.range (2 ^ qs.length),
      a (gather qs i) k * act qs b amp (patch qs i k) =
        ∑ c ∈ Finset.range (2 ^ qs.length), a (gather qs i) k * b k c * amp (patch qs i c) := by
    intro k hk
    rw [act, gather_patch hn (Finset.mem_range.mp hk), Finset.mul_sum]
    refine Finset.sum_congr rfl fun c _ => ?_
    rw [patch_patch hn, mul_assoc]
  rw [act, Finset.sum_congr rfl hinner, Finset.sum_comm]
  refine Finset.sum_congr rfl fun c _ => ?_
  rw [Finset.sum_mul]

/-- Acting on disjoint sets of qubits commutes. -/
theorem act_comm {qs' : List Qubit} (hn' : qs'.Nodup) (hd : ∀ q ∈ qs, q ∉ qs') :
    act qs a (act qs' b amp) = act qs' b (act qs a amp) := by
  funext i
  have hd' : ∀ q ∈ qs', q ∉ qs := fun q hq' hq => hd q hq hq'
  have hleft : ∀ c, a (gather qs i) c * act qs' b amp (patch qs i c) =
      ∑ c' ∈ Finset.range (2 ^ qs'.length),
        a (gather qs i) c * (b (gather qs' i) c' * amp (patch qs' (patch qs i c) c')) := by
    intro c
    rw [act, gather_patch_of_disjoint hd, Finset.mul_sum]
  have hright : ∀ c', b (gather qs' i) c' * act qs a amp (patch qs' i c') =
      ∑ c ∈ Finset.range (2 ^ qs.length),
        b (gather qs' i) c' * (a (gather qs i) c * amp (patch qs (patch qs' i c') c)) := by
    intro c'
    rw [act, gather_patch_of_disjoint hd', Finset.mul_sum]
  rw [act, act, Finset.sum_congr rfl fun c _ => hleft c, Finset.sum_congr rfl fun c' _ => hright c',
    Finset.sum_comm]
  refine Finset.sum_congr rfl fun c' _ => Finset.sum_congr rfl fun c _ => ?_
  rw [patch_comm hd hn hn']
  ring

end Act
end GateFusion
