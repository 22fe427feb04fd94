import GateFusion.Parameter.Expr
import GateFusion.Qubit

/-!
# Errors of gates and circuits

The causes for which a matrix, a gate or a change of a circuit graph is refused. Only
`CircuitError.message` knows their wording.
-/

namespace GateFusion

/-- Stable name of a block: its place in the arena and its creation number. Places are reused,
creation numbers are not. -/
structure BlockId where
  slot : Nat
  seq : Nat
deriving DecidableEq

def BlockId.text (id : BlockId) : String := s!"b{id.seq}"

/-- Ways in which the wiring of a graph is violated, or would be. -/
inductive WiringFault where
  | actsOnNothing (gate : String)
  | missingFromTarget (qubit : Qubit)
  | notAdjacent (a b : BlockId)
  | linkedThroughAnother (earlier later : BlockId)
  | qubitsDiffer (fused union : List Qubit) (earlier later : BlockId)
  | cycle
  | againstRanks (qubit : Qubit)
  | linksUntouched (qubit : Qubit)
  | onForeignWire (id : BlockId) (qubit : Qubit)
  | broken (qubit : Qubit) (id : BlockId)
  | unending (qubit : Qubit)
  | wrongTail (qubit : Qubit)
  | visitCount (visits expected : Nat)

def WiringFault.message : WiringFault → String
  | .actsOnNothing gate => s!"gate '{gate}' acts on no qubits"
  | .missingFromTarget q => s!"qubit {q.text} of the gate is missing from the extension target"
  | .notAdjacent a b => s!"blocks {a.text} and {b.text} are not wire-adjacent"
  | .linkedThroughAnother a b => s!"blocks {a.text} and {b.text} are linked through another block"
  | .qubitsDiffer fused union a b =>
    s!"fused gate qubits {Qubit.listText fused} differ from the union {Qubit.listText union} of " ++
      s!"{a.text} and {b.text}"
  | .cycle => "graph contains a cycle"
  | .againstRanks q => s!"edge on {q.text} runs against the block ranks"
  | .linksUntouched q => s!"edge on {q.text} links a block that does not touch it"
  | .onForeignWire id q => s!"block {id.text} is on the wire of {q.text} without touching it"
  | .broken q id => s!"wire of {q.text} is broken before block {id.text}"
  | .unending q => s!"wire of {q.text} does not terminate"
  | .wrongTail q => s!"wire of {q.text} does not end at its tail"
  | .visitCount visits expected => s!"wires visit {visits} block slots, blocks hold {expected}"

/-- Why a matrix, a gate or a change of a graph is refused. The last three are broken obligations of
the caller: a product of matrices of different size, an entry outside a matrix, and a gate for which
no number is left. -/
inductive CircuitError (α : Type) where
  | qubitNotFound (qubit : Qubit) (numQubits : Nat) (gate : String)
  | duplicateQubit (qubit : Qubit) (gate : String)
  | qubitCountMismatch (gate : String) (expected got : Nat)
  | matrixDimension (numQubits expected got : Nat)
  | arityOverflow (numQubits : Nat) (context : String)
  | wiring (fault : WiringFault)
  | invalidBlock (id : BlockId)
  | nonAffine (e : Expr α)
  | unequalSizes (left right : Nat)
  | entryOutside (row col : Nat)
  | outOfNumbers

def CircuitError.message : CircuitError Binary64 → String
  | .qubitNotFound q n gate =>
    s!"Qubit {q.text} not found in circuit of {n} qubits (gate: {gate})"
  | .duplicateQubit q gate => s!"Duplicate qubit {q.text} in gate (gate: {gate})"
  | .qubitCountMismatch gate expected got => s!"Gate '{gate}' expects {expected} qubits, got {got}"
  | .matrixDimension n expected got =>
    s!"Matrix with {got} entries does not fit a {n}-qubit gate (expected {expected})"
  | .arityOverflow n context =>
    s!"{context}: {n} qubits exceed the index width of {maxIndexWidth} bits"
  | .wiring fault => s!"Graph invariant violated: {fault.message}"
  | .invalidBlock id => s!"Block {id.text} is not live in the circuit graph"
  | .nonAffine e => s!"Parameter expression '{e.text}' is not affine in its symbols"
  | .unequalSizes l r => s!"matrix product requires equal dimensions, got {l} and {r} qubits"
  | .entryOutside row col => s!"matrix has no entry at row {row} and column {col}"
  | .outOfNumbers => "no number is left for another gate"

/-- Refuse a number of qubits that does not fit an index. -/
def checkIndexWidth {α : Type} (numQubits : Nat) (context : String) :
    Except (CircuitError α) Unit :=
  if maxIndexWidth < numQubits then .error (.arityOverflow numQubits context) else .ok ()

end GateFusion
