import GateFusion.Gate.Standard

/-!
# Gates

A gate is a matrix on an ordered list of distinct qubits. Bit `i` of a row or column of the matrix
is the state of the gate's `i`-th qubit.
-/

namespace GateFusion

/-- A named operation on qubits. -/
structure Gate (α : Type) where
  name : String
  qubits : List Qubit
  matrix : GateMatrix α

namespace Gate
variable {α : Type}

/-- Distinct qubits, few enough for an index, and a matrix of their number. -/
structure WellFormed (g : Gate α) : Prop where
  nodup : g.qubits.Nodup
  width : g.qubits.length ≤ maxIndexWidth
  size : g.matrix.numQubits = g.qubits.length
  entries : g.matrix.WellFormed

def numQubits (g : Gate α) : Nat := g.qubits.length

def actsOn (g : Gate α) (q : Qubit) : Bool := g.qubits.contains q

/-- The first qubit that stands in the list a second time. -/
def firstDuplicate? (seen : List Qubit) : List Qubit → Option Qubit
  | [] => none
  | q :: rest => if seen.contains q then some q else firstDuplicate? (q :: seen) rest

def ofMatrix (name : String) (qubits : List Qubit) (matrix : GateMatrix α) :
    Except (CircuitError α) (Gate α) := do
  checkIndexWidth qubits.length "gate"
  match firstDuplicate? [] qubits with
  | some q => .error (.duplicateQubit q name)
  | none =>
    if matrix.numQubits = qubits.length then .ok ⟨name, qubits, matrix⟩
    else .error (.qubitCountMismatch name matrix.numQubits qubits.length)

variable [Scalar α]

def standard (g : StandardGate α) (qubits : List Qubit) : Except (CircuitError α) (Gate α) := do
  if qubits.length = g.numQubits then ofMatrix g.name qubits (← g.matrix)
  else .error (.qubitCountMismatch g.name g.numQubits qubits.length)

def isSymbolic (g : Gate α) : Bool := g.matrix.isSymbolic

def symbols (g : Gate α) : NameSet := g.matrix.symbols

end Gate
end GateFusion
