import GateFusion.Gate.Basic

/-!
# Composition of gates

One gate that does what two gates do in succession. On equal qubit sets it keeps the order of the
earlier gate; otherwise it acts on the union in ascending order, each matrix being extended by the
identity first.
-/

namespace GateFusion.Gate
variable {α : Type} [Scalar α]

/-- Whether both gates act on the same qubits, in whatever order. -/
def sameQubits (earlier later : Gate α) : Bool :=
  earlier.qubits.length == later.qubits.length && later.qubits.all earlier.actsOn

def insertQubit (q : Qubit) : List Qubit → List Qubit
  | [] => [q]
  | p :: rest => if q < p then q :: p :: rest else if q = p then p :: rest
      else p :: insertQubit q rest

def unionQubits (earlier later : Gate α) : List Qubit :=
  (earlier.qubits ++ later.qubits).foldr insertQubit []

/-- The matrix of a gate over a list of qubits that contains its own. -/
def matrixOver (g : Gate α) (qubits : List Qubit) : Except (CircuitError α) (GateMatrix α) :=
  if qubits = g.qubits then .ok g.matrix else g.matrix.extend g.qubits qubits

/-- `earlier` followed by `later`. -/
def compose (earlier later : Gate α) : Except (CircuitError α) (Gate α) := do
  let qubits :=
    if sameQubits earlier later then earlier.qubits else unionQubits earlier later
  checkIndexWidth qubits.length "gate fusion"
  let first ← earlier.matrixOver qubits
  let second ← later.matrixOver qubits
  return ⟨"fused", qubits, ← second.multiply first⟩

end GateFusion.Gate
