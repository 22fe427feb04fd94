import GateFusion.Circuit.Order
import GateFusion.Kernel.Indexing
import GateFusion.Kernel.Preparation

/-!
# Kernel specs

Every block of a graph is lowered to a kernel: its matrix with symbolic entries replaced by slots of
the parameter buffer, and the index arithmetic that tells which amplitudes it touches. Slots are
numbered through all kernels, row by row.
-/

namespace GateFusion

/-- An entry known when the kernel is compiled, or read from a slot of the parameter buffer. -/
inductive KernelEntry (α : Type) where
  | constant (c : Cartesian α)
  | parameter (slot : Nat)

def KernelEntry.isZero {α : Type} [Scalar α] : KernelEntry α → Bool
  | .constant c => c == 0
  | .parameter _ => false

/-- What a backend needs to emit one kernel. -/
structure KernelSpec (α : Type) where
  id : Nat
  block : BlockId
  qubits : List Qubit
  matrix : Array (KernelEntry α)
  indexing : Indexing
  origins : List Nat

namespace KernelSpec
variable {α : Type}

def arity (k : KernelSpec α) : Nat := k.qubits.length

def dim (k : KernelSpec α) : Nat := k.indexing.groupSize

def entry? (k : KernelSpec α) (row col : Nat) : Option (KernelEntry α) :=
  k.matrix[row * k.dim + col]?

def isSymbolic (k : KernelSpec α) : Bool :=
  k.matrix.any fun
    | .constant _ => false
    | .parameter _ => true

end KernelSpec

/-- Kernels in execution order, and the preparation if some entry is symbolic. -/
structure GeneratedKernels (α : Type) where
  kernels : List (KernelSpec α)
  preparation : Option (Preparation α)

namespace KernelSpec
variable {α : Type}

def lowerEntry (kernel dim : Nat) (acc : Array (KernelEntry α) × List (ParameterSlot α))
    (e : Entry α × Nat) : Array (KernelEntry α) × List (ParameterSlot α) :=
  match e.1 with
  | .numeric c => (acc.1.push (.constant c), acc.2)
  | .symbolic p =>
    (acc.1.push (.parameter acc.2.length), acc.2 ++ [⟨kernel, e.2 / dim, e.2 % dim, p⟩])

def lowerBlock (numQubits : Nat) (acc : List (KernelSpec α) × List (ParameterSlot α))
    (b : BlockId × Block α) :
    Except (CompileError α) (List (KernelSpec α) × List (ParameterSlot α)) := do
  let gate := b.2.gate
  let id := acc.1.length
  let indexing ← Indexing.ofQubits gate.qubits numQubits
  let (matrix, slots) :=
    gate.matrix.entries.toList.zipIdx.foldl (lowerEntry id gate.matrix.dim) (#[], acc.2)
  return (acc.1 ++ [⟨id, b.1, gate.qubits, matrix, indexing, b.2.origins⟩], slots)

/-- One kernel per block, in execution order, for a statevector of the given width. -/
def generate [Scalar α] (numQubits : Nat) (g : CircuitGraph α) :
    Except (CompileError α) (GeneratedKernels α) := do
  let (kernels, slots) ← g.blocks.foldlM (lowerBlock numQubits) ([], [])
  let preparation :=
    if slots.isEmpty then none
    else some (.ofParameters (slots.flatMap fun s => s.expr.symbols) slots)
  return ⟨kernels, preparation⟩

end KernelSpec
end GateFusion
