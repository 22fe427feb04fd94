import GateFusion.Kernel.Spec

/-!
# Backends

A backend turns kernel specs into functions on amplitudes, and the preparation into a function that
fills the parameter buffer.
-/

namespace GateFusion

/-- A compiled kernel: from amplitudes, the width of the statevector, the mask of the target qubits
and the parameter buffer to the new amplitudes. -/
abbrev KernelFn (α : Type) :=
  Array (Cartesian α) → Nat → UInt64 → List α → Except SimulationError (Array (Cartesian α))

/-- A compiled preparation: from parameter values and a buffer to the filled buffer. -/
abbrev PrepareFn (α : Type) := List α → List α → List α

structure Backend (α : Type) where
  name : String
  compileKernel : KernelSpec α → Except BackendError (KernelFn α)
  compilePreparation : Preparation α → Except BackendError (PrepareFn α)

end GateFusion
