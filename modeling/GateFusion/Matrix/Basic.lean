import GateFusion.Circuit.Error
import GateFusion.Matrix.Entry

/-!
# Gate matrices

Square matrices over `k` qubits, stored row by row. Rows and columns are little-endian in the
qubit order of the gate: bit `i` of an index is the state of the gate's `i`-th qubit.
-/

namespace GateFusion

/-- A `2^k × 2^k` matrix, row by row. -/
structure GateMatrix (α : Type) where
  numQubits : Nat
  entries : Array (Entry α)

namespace GateMatrix
variable {α : Type}

def dim (m : GateMatrix α) : Nat := Nat.pow 2 m.numQubits

/-- As many entries as the edge length asks for. -/
def WellFormed (m : GateMatrix α) : Prop := m.entries.size = m.dim * m.dim

instance (m : GateMatrix α) : Decidable m.WellFormed :=
  inferInstanceAs (Decidable (_ = _))

/-- The number of entries over `k` qubits, which has to fit a 64-bit index. -/
def entryCount (k : Nat) : Except (CircuitError α) Nat := do
  checkIndexWidth k "gate matrix"
  if 64 ≤ 2 * k then .error (.arityOverflow k "gate matrix") else .ok (Nat.pow 2 (2 * k))

def ofEntries (k : Nat) (entries : Array (Entry α)) : Except (CircuitError α) (GateMatrix α) := do
  let expected ← entryCount k
  if entries.size = expected then .ok ⟨k, entries⟩
  else .error (.matrixDimension k expected entries.size)

def ofFn (k : Nat) (f : Nat → Nat → Entry α) : GateMatrix α :=
  let dim := Nat.pow 2 k
  ⟨k, ((List.range (dim * dim)).map fun i => f (i / dim) (i % dim)).toArray⟩

def get? (m : GateMatrix α) (row col : Nat) : Option (Entry α) :=
  m.entries[row * m.dim + col]?

def isSymbolic [Scalar α] (m : GateMatrix α) : Bool :=
  m.entries.any Entry.isSymbolic

variable [Scalar α]

def entry (m : GateMatrix α) (row col : Nat) : Entry α :=
  (m.get? row col).getD 0

def identity (k : Nat) : Except (CircuitError α) (GateMatrix α) := do
  let _ ← entryCount (α := α) k
  return ofFn k fun row col => if row = col then 1 else 0

def symbols (m : GateMatrix α) : NameSet :=
  NameSet.ofList (m.entries.toList.flatMap Entry.symbols)

/-- How many entries are not zero and estimated above the threshold. -/
def countNonzero (m : GateMatrix α) (threshold : α) : Nat :=
  m.entries.toList.countP fun e => !e.isZero && decide (threshold < e.magnitude)

def evaluate (m : GateMatrix α) (lookup : String → Option α) : Option (List (Cartesian α)) :=
  m.entries.toList.mapM fun e => e.evaluate lookup

/-- One entry of a product: the sum over the inner index in ascending order, in which pairs with a
factor of exactly zero are left out. -/
def productEntry (a b : GateMatrix α) (row col : Nat) : Entry α :=
  (List.range a.dim).foldl (fun acc k =>
    let l := a.entry row k
    let r := b.entry k col
    if l.isZero || r.isZero then acc else acc.add (l.mul r)) 0

def multiply (a b : GateMatrix α) : Except (CircuitError α) (GateMatrix α) :=
  if a.numQubits = b.numQubits then .ok (ofFn a.numQubits (productEntry a b))
  else .error (.unequalSizes a.numQubits b.numQubits)

/-- Where each of the gate's own qubits stands in the target list. -/
def positions (own target : List Qubit) : Except (CircuitError α) (List Nat) :=
  own.mapM fun q =>
    match target.idxOf? q with
    | some p => .ok p
    | none => .error (.wiring (.missingFromTarget q))

/-- The index whose bit `i` is bit `positions[i]` of `index`. -/
def gather (positions : List Nat) (index : Nat) : Nat :=
  match positions with
  | [] => 0
  | p :: ps => (index / Nat.pow 2 p % 2) + 2 * gather ps index

/-- Whether two indices agree in all bits below `width` outside the given positions. -/
def agreeOutside (positions : List Nat) (width row col : Nat) : Bool :=
  (List.range width).all fun b => positions.contains b || row.testBit b == col.testBit b

/-- The matrix on `own` qubits re-expressed over the `target` qubits: the identity on qubits that
are new, in the order of `target`. -/
def extend (m : GateMatrix α) (own target : List Qubit) :
    Except (CircuitError α) (GateMatrix α) := do
  checkIndexWidth target.length "matrix extension"
  let ps ← positions own target
  let _ ← entryCount (α := α) target.length
  let dim := Nat.pow 2 target.length
  let entries ← (List.range (dim * dim)).mapM fun i =>
    let row := i / dim
    let col := i % dim
    if agreeOutside ps target.length row col then
      match m.get? (gather ps row) (gather ps col) with
      | some e => .ok e
      | none => .error (.entryOutside (gather ps row) (gather ps col))
    else .ok 0
  return ⟨target.length, entries.toArray⟩

instance : BEq (GateMatrix α) := ⟨fun a b => a.numQubits == b.numQubits && a.entries == b.entries⟩

end GateMatrix
end GateFusion
