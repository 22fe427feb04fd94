import GateFusion.OrderedMap
import GateFusion.Qubit
import GateFusion.Text.Quoted

/-!
# Errors of the simulation

Why a kernel, a statevector or a gate is refused by the interpreter.
-/

namespace GateFusion

/-- Causes of a refusal. The last one is a broken obligation of the caller: an index outside the
amplitudes or the parameter buffer. -/
inductive SimulationError where
  | matrixShape (kernel expected got : Nat)
  | statevectorLength (length : Nat)
  | qubitOutOfRange (gate : String) (qubit : Qubit) (numQubits : Nat)
  | unboundParameter (gate : String) (symbols : NameSet)
  | indexOutside (index size : Nat)

def SimulationError.message : SimulationError → String
  | .matrixShape kernel expected got =>
    s!"Kernel {kernel} has {got} matrix entries, expected {expected}"
  | .statevectorLength n => s!"Statevector length {n} is not a power of two"
  | .qubitOutOfRange gate q n => s!"Gate '{gate}' touches qubit {q} of a {n}-qubit statevector"
  | .unboundParameter gate symbols =>
    s!"Gate '{gate}' needs a value for one of {Text.quotedList symbols}"
  | .indexOutside i n => s!"index {i} is outside {n} values"

/-- Why a backend refuses a kernel or a preparation: an error of the simulation, or a message of its
own. -/
inductive BackendError where
  | simulation (e : SimulationError)
  | refused (message : String)

def BackendError.message : BackendError → String
  | .simulation e => e.message
  | .refused m => m

end GateFusion
