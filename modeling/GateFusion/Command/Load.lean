import GateFusion.Command.Arguments
import GateFusion.Command.Host
import GateFusion.Document.Config

/-!
# Input files

Circuits and configurations as commands load them.
-/

namespace GateFusion.Command
variable {m : Type → Type} [Monad m] (host : Host m)

/-- The circuit of a file, by default named like the file, and the nanoseconds that reading its
text took. -/
def loadCircuit (path : String) : Action m (Circuit Binary64 × Nat) := do
  let source ← host.source path
  let name := (Document.fileStem? path).getD "circuit"
  let (result, time) ← host.timed fun _ => Document.readCircuit source (.ofPath path) name
  return (← orFail (.circuit path) result, time)

def loadConfig (path : String) : Action m (FusionConfig Binary64) := do
  let source ← host.source path
  let format := Document.Format.ofPath path
  match (format.read? source).bind (Document.ConfigDocument.ofNode? format.isPositional) with
  | some config => return config
  | none => throw (.config path format)

/-- The configuration that options ask for: of the file or the default, overridden by the other
options, and in range. -/
def resolveConfig (options : FusionOptions) : Action m (FusionConfig Binary64) := do
  let base ←
    match options.config with
    | some path => loadConfig host path
    | none => pure .default
  let config : FusionConfig Binary64 :=
    { maxFusedArity := options.maxFusedArity.getD base.maxFusedArity
      cost :=
        { operationCountCeiling :=
            options.operationCountCeiling.getD base.cost.operationCountCeiling
          zeroSkipThreshold := options.zeroSkipThreshold.getD base.cost.zeroSkipThreshold } }
  orFail (fun fault => .compilation (.config fault)) config.validate
  return config

end GateFusion.Command
