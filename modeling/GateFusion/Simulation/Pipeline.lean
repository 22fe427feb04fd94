import GateFusion.Circuit.Builder
import GateFusion.Fusion.Engine
import GateFusion.Kernel.Backend

/-!
# Compilation pipeline

From a circuit graph to runnable kernels: fusion, kernel generation, and compilation by a backend.
-/

namespace GateFusion

structure CompiledKernel (α : Type) where
  spec : KernelSpec α
  fn : KernelFn α

structure CompiledPreparation (α : Type) where
  preparation : Preparation α
  fn : PrepareFn α

/-- Kernels in execution order, the preparation if one of them is symbolic, and what fusion did. -/
structure CompiledCircuit (α : Type) where
  numQubits : Nat
  kernels : List (CompiledKernel α)
  preparation : Option (CompiledPreparation α)
  report : FusionReport α

namespace CompiledCircuit
variable {α : Type} [Scalar α]

def parameters (c : CompiledCircuit α) : NameSet :=
  match c.preparation with
  | some p => p.preparation.parameters
  | none => []

def buffer (c : CompiledCircuit α) (values : List α) : Except (CompileError α) (List α) := do
  match c.preparation with
  | some p =>
    p.preparation.checkValues values
    return p.fn values (List.replicate p.preparation.bufferLen 0)
  | none =>
    if values.isEmpty then return [] else throw (.parameterCount 0 values.length)

def applyKernel (numQubits : Nat) (buffer : List α) (amplitudes : Array (Cartesian α))
    (k : CompiledKernel α) : Except (CompileError α) (Array (Cartesian α)) :=
  match k.fn amplitudes numQubits k.spec.indexing.mask buffer with
  | .ok out => .ok out
  | .error (.indexOutside i n) => .error (.indexOutside i n)
  | .error e => .error (.backend (.simulation e))

/-- Apply every kernel in order; the parameter values are given in value order. -/
def run (c : CompiledCircuit α) (amplitudes : Array (Cartesian α)) (values : List α) :
    Except (CompileError α) (Array (Cartesian α)) := do
  if amplitudes.size ≠ Nat.pow 2 c.numQubits then
    throw (.statevectorSize (Nat.pow 2 c.numQubits) amplitudes.size)
  let buffer ← c.buffer values
  c.kernels.foldlM (applyKernel c.numQubits buffer) amplitudes

/-- Apply every kernel in order; parameter values are looked up by name. -/
def runNamed (c : CompiledCircuit α) (amplitudes : Array (Cartesian α))
    (named : String → Option α) : Except (CompileError α) (Array (Cartesian α)) := do
  let ordered ←
    match c.preparation with
    | some p => p.preparation.bind named
    | none => .ok []
  c.run amplitudes ordered

end CompiledCircuit

/-- Fusion, kernel generation and a backend in one place. -/
structure Pipeline (α : Type) [Scalar α] where
  engine : FusionEngine α
  backend : Backend α

namespace Pipeline
variable {α : Type} [Scalar α]

/-- A pipeline with the naive cost model; the configuration has to be in range. -/
def ofConfig (config : FusionConfig α) (backend : Backend α) :
    Except (CompileError α) (Pipeline α) := do
  return ⟨← FusionEngine.ofConfig config, backend⟩

def lower (p : Pipeline α) (numQubits : Nat) (generated : GeneratedKernels α)
    (report : FusionReport α) : Except (CompileError α) (CompiledCircuit α) := do
  let kernels ← generated.kernels.mapM fun spec => do
    let fn ← (p.backend.compileKernel spec).mapError .backend
    return CompiledKernel.mk spec fn
  let preparation ← generated.preparation.mapM fun prep => do
    let fn ← (p.backend.compilePreparation prep).mapError .backend
    return CompiledPreparation.mk prep fn
  return ⟨numQubits, kernels, preparation, report⟩

/-- Fuse a graph, then generate and compile its kernels. -/
def compile (p : Pipeline α) (g : CircuitGraph α) :
    Except (CompileError α) (CompiledCircuit α × CircuitGraph α) := do
  let (report, fused) ← p.engine.run g
  let generated ← KernelSpec.generate fused.numQubits fused
  return (← p.lower fused.numQubits generated report, fused)

end Pipeline
end GateFusion
