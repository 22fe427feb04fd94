import GateFusion.Decimal.Text

/-!
# Fusion configuration

The limits under which gates are fused, with a default for each, and the ranges they must lie in.
-/

namespace GateFusion

/-- Parameters of the cost model: the largest number of nonzero entries a fused gate may have, and
the magnitude up to which an entry counts as zero in estimates. -/
structure CostParams (α : Type) where
  operationCountCeiling : Nat
  zeroSkipThreshold : α

/-- The largest number of qubits of a fused gate, and the parameters of the cost model. -/
structure FusionConfig (α : Type) where
  maxFusedArity : Nat
  cost : CostParams α

inductive ConfigFault (α : Type) where
  | arityTooSmall
  | ceilingTooSmall
  | thresholdOutOfRange (threshold : α)

def ConfigFault.message : ConfigFault Binary64 → String
  | .arityTooSmall => "max_fused_arity must be at least 1"
  | .ceilingTooSmall => "operation_count_ceiling must be at least 1"
  | .thresholdOutOfRange t =>
    s!"zero_skip_threshold must be finite and non-negative, got {Decimal.plain t}"

variable {α : Type} [Scalar α]

def CostParams.default : CostParams α := ⟨64, 1e-8⟩

def FusionConfig.default : FusionConfig α := ⟨3, CostParams.default⟩

/-- Check every value against its range, in the order of the fields. -/
def FusionConfig.validate (c : FusionConfig α) : Except (ConfigFault α) Unit :=
  if c.maxFusedArity < 1 then .error .arityTooSmall
  else if c.cost.operationCountCeiling < 1 then .error .ceilingTooSmall
  else if !Scalar.isFinite c.cost.zeroSkipThreshold || decide (c.cost.zeroSkipThreshold < 0) then
    .error (.thresholdOutOfRange c.cost.zeroSkipThreshold)
  else .ok ()

end GateFusion
