import GateFusion.Document.Fields
import GateFusion.Fusion.Config

/-!
# Fusion configurations as nodes

A configuration names only the values that differ from the defaults.
-/

namespace GateFusion.Document

def CostDocument.toNode (p : CostParams Binary64) : Node :=
  .map [("operation_count_ceiling", .int p.operationCountCeiling),
    ("zero_skip_threshold", .float p.zeroSkipThreshold)]

def CostDocument.ofNode? (positional : Bool) (n : Node) : Option (CostParams Binary64) :=
  let default : CostParams Binary64 := .default
  match n.fields? positional true ["operation_count_ceiling", "zero_skip_threshold"] with
  | some [ceiling, threshold] => do
    return ⟨← Node.orDefault Node.size? default.operationCountCeiling ceiling,
      ← Node.orDefault Node.number? default.zeroSkipThreshold threshold⟩
  | _ => none

def ConfigDocument.toNode (c : FusionConfig Binary64) : Node :=
  .map [("max_fused_arity", .int c.maxFusedArity), ("cost_model", CostDocument.toNode c.cost)]

def ConfigDocument.ofNode? (positional : Bool) (n : Node) : Option (FusionConfig Binary64) :=
  let default : FusionConfig Binary64 := .default
  match n.fields? positional true ["max_fused_arity", "cost_model"] with
  | some [arity, cost] => do
    return ⟨← Node.orDefault Node.size? default.maxFusedArity arity,
      ← Node.orDefault (CostDocument.ofNode? positional) default.cost cost⟩
  | _ => none

end GateFusion.Document
