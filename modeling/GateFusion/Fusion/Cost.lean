import GateFusion.Fusion.Config
import GateFusion.Gate.Basic

/-!
# Cost models

A gate on `k` of `n` qubits visits `2^(n-k)` groups of amplitudes. Per group it loads and stores
`2^k` amplitudes and performs a multiplication and an addition for each nonzero matrix entry, so the
cost per group is what a model estimates. Models are pure and their estimate does not decrease with
the number of nonzero entries.
-/

namespace GateFusion

/-- An estimate of the cost of gates. The fields with a default say what a model usually does. -/
structure CostModel (α : Type) [Scalar α] where
  /-- Cost per group of a gate by its number of qubits and of nonzero entries. -/
  estimate : Nat → Nat → α
  /-- The largest number of nonzero entries of a fused gate. -/
  ceiling : Nat
  /-- The magnitude up to which an entry counts as zero. -/
  zeroSkipThreshold : α
  /-- Whether gates of cost `before` may give way to one of cost `after`. -/
  isProfitable : α → α → Bool := fun before after => decide (after ≤ before)
  /-- Whether fusion may produce a gate with that many nonzero entries. -/
  admits : Nat → Bool := fun nonzero => decide (nonzero ≤ ceiling)
  /-- The number of nonzero entries of a matrix. -/
  countNonzero : GateMatrix α → Nat := fun m => m.countNonzero zeroSkipThreshold
  /-- The cost of a gate. -/
  gateCost : Gate α → α := fun g => estimate g.numQubits (countNonzero g.matrix)

/-- The model that counts loads, stores and operations: `2^k` plus the number of nonzero entries,
which counts up to the ceiling. -/
def CostModel.naive {α : Type} [Scalar α] (params : CostParams α) : CostModel α where
  estimate arity nonzero :=
    Scalar.twoPow arity + ((min nonzero params.operationCountCeiling : Nat) : α)
  ceiling := params.operationCountCeiling
  zeroSkipThreshold := params.zeroSkipThreshold

end GateFusion
