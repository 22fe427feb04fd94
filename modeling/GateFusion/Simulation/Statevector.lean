import GateFusion.Circuit.Order
import GateFusion.Simulation.Error

/-!
# Statevectors

The amplitudes of a quantum state and the gate-by-gate simulation on them, which is the reference
that compiled kernels are compared with. Bit `q` of an amplitude index is the state of qubit `q`.
-/

namespace GateFusion

/-- The `2^n` amplitudes of `n` qubits. -/
structure Statevector (α : Type) where
  amplitudes : Array (Cartesian α)
  numQubits : Nat

namespace Statevector
variable {α : Type} [Scalar α]

def zero (numQubits : Nat) : Statevector α :=
  ⟨(Array.replicate (Nat.pow 2 numQubits) 0).setIfInBounds 0 1, numQubits⟩

/-- The state of given amplitudes, whose number has to be a power of two. -/
def ofAmplitudes (amplitudes : Array (Cartesian α)) : Except SimulationError (Statevector α) :=
  let n := amplitudes.size.log2
  if amplitudes.size = Nat.pow 2 n then .ok ⟨amplitudes, n⟩
  else .error (.statevectorLength amplitudes.size)

def normSq (s : Statevector α) : α :=
  Scalar.sum (s.amplitudes.toList.map Cartesian.normSq)

def probabilities (s : Statevector α) : List α :=
  s.amplitudes.toList.map Cartesian.normSq

/-- Largest distance between corresponding amplitudes; infinite for states of different size. -/
def maxAbsDiff (s t : Statevector α) : α :=
  if s.amplitudes.size ≠ t.amplitudes.size then Scalar.infinity
  else
    ((s.amplitudes.toList.zip t.amplitudes.toList).map fun p => (p.1 - p.2).norm).foldl
      Scalar.larger 0

instance : BEq (Statevector α) :=
  ⟨fun s t => s.amplitudes == t.amplitudes && s.numQubits == t.numQubits⟩

/-- The index whose bits at the given qubits are those of a gate-local index: bit `i` goes to
`qubits[i]`. -/
def scatter : List Qubit → Nat → Nat
  | [], _ => 0
  | q :: qs, j => (if j % 2 = 1 then Nat.pow 2 q else 0) ||| scatter qs (j / 2)

/-- The scalar product of a row and the amplitudes of a group. -/
def rowValue (row input : List (Cartesian α)) : Cartesian α :=
  Cartesian.sum ((row.zip input).map fun p => p.1 * p.2)

/-- Apply a matrix, given by its rows, to the amplitudes at `base` and the offsets, in place. -/
def applyGroup (rows : List (List (Cartesian α))) (offsets : List Nat)
    (amplitudes : Array (Cartesian α)) (base : Nat) : Array (Cartesian α) :=
  let input := offsets.map fun o => amplitudes.getD (base ||| o) 0
  (rows.zip offsets).foldl
    (fun amps r => amps.setIfInBounds (base ||| r.2) (rowValue r.1 input)) amplitudes

/-- Apply a matrix on the given qubits, group by group: a group starts at every index with all
target bits clear. -/
def applyMatrix (matrix : List (Cartesian α)) (qubits : List Qubit) (s : Statevector α) :
    Statevector α :=
  let dim := Nat.pow 2 qubits.length
  let offsets := (List.range dim).map (scatter qubits)
  let rows := (List.range dim).map fun r => (matrix.drop (r * dim)).take dim
  let mask := offsets.getLastD 0
  let bases := (List.range (Nat.pow 2 s.numQubits)).filter fun i => i &&& mask = 0
  { s with amplitudes := bases.foldl (applyGroup rows offsets) s.amplitudes }

/-- Apply a gate, its symbols taking the values of an assignment. -/
def applyGate (s : Statevector α) (g : Gate α) (lookup : String → Option α) :
    Except SimulationError (Statevector α) :=
  match g.qubits.find? fun q => s.numQubits ≤ q with
  | some q => .error (.qubitOutOfRange g.name q s.numQubits)
  | none =>
    match g.matrix.evaluate lookup with
    | some matrix => .ok (applyMatrix matrix g.qubits s)
    | none => .error (.unboundParameter g.name g.symbols)

/-- Apply gates one after another. The result is the state reached, and the error that stopped
it. -/
def applyGates (lookup : String → Option α) :
    List (Gate α) → Statevector α → Statevector α × Except SimulationError Unit
  | [], s => (s, .ok ())
  | g :: gs, s =>
    match s.applyGate g lookup with
    | .ok t => applyGates lookup gs t
    | .error e => (s, .error e)

/-- Apply every block of a graph in execution order. The result is the state reached, and the error
that stopped it. -/
def applyGraph (s : Statevector α) (g : CircuitGraph α) (lookup : String → Option α) :
    Statevector α × Except SimulationError Unit :=
  applyGates lookup (g.blocks.map fun b => b.2.gate) s

end Statevector
end GateFusion
