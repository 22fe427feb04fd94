import GateFusion.Circuit.Error
import GateFusion.Fusion.Config
import GateFusion.Simulation.Error

/-!
# Errors of compilation

Why a circuit cannot be fused, lowered to kernels or run.
-/

namespace GateFusion

/-- Causes of a refusal. The last one is a broken obligation of the caller of a kernel: an index
outside the amplitudes or the parameter buffer. -/
inductive CompileError (α : Type) where
  | circuit (e : CircuitError α)
  | config (fault : ConfigFault α)
  | qubitOutOfRange (qubit : Qubit) (numQubits : Nat)
  | backend (e : BackendError)
  | parameterCount (expected got : Nat)
  | unboundParameter (name : String)
  | bufferSize (expected got : Nat)
  | statevectorSize (expected got : Nat)
  | indexOutside (index size : Nat)

def CompileError.message : CompileError Binary64 → String
  | .circuit e => s!"IR error: {e.message}"
  | .config fault => s!"Invalid fusion configuration: {fault.message}"
  | .qubitOutOfRange q n => s!"Qubit {q.text} is outside a statevector of {n} qubits"
  | .backend e => s!"Codegen backend failed: {e.message}"
  | .parameterCount expected got => s!"Expected {expected} parameter values, got {got}"
  | .unboundParameter name => s!"No value bound for parameter '{name}'"
  | .bufferSize expected got => s!"Parameter buffer has {got} values, preparation needs {expected}"
  | .statevectorSize expected got => s!"Statevector has {got} amplitudes, circuit needs {expected}"
  | .indexOutside i n => s!"index {i} is outside {n} values"

end GateFusion
