import GateFusion.Kernel.Backend

/-!
# The interpreter

A backend that runs kernel specs directly. A kernel walks its amplitude groups, depositing the group
number into the bits left free, reads the amplitudes of the group, multiplies them by the matrix
without the entries known to be zero, and writes the result back.
-/

namespace GateFusion.Interpreter
variable {α : Type} [Scalar α]

/-- The value of an entry: slot `s` is read from places `2s` and `2s + 1`. -/
def entryValue (e : KernelEntry α) (params : List α) : Except SimulationError (Cartesian α) :=
  match e with
  | .constant c => .ok c
  | .parameter slot =>
    match params[2 * slot]?, params[2 * slot + 1]? with
    | some re, some im => .ok ⟨re, im⟩
    | _, _ => .error (.indexOutside (2 * slot + 1) params.length)

/-- A matrix row as its columns and entries, without the entries known to be zero. -/
abbrev SparseRow (α : Type) := List (Nat × KernelEntry α)

def sparseRows (spec : KernelSpec α) : List (SparseRow α) :=
  (List.range spec.dim).map fun row =>
    (List.range spec.dim).filterMap fun col =>
      match spec.entry? row col with
      | some e => if e.isZero then none else some (col, e)
      | none => none

/-- The scalar product of a sparse row and the amplitudes of a group. -/
def rowValue (params : List α) (input : Array (Cartesian α)) (row : SparseRow α) :
    Except SimulationError (Cartesian α) :=
  row.foldlM (fun acc e => do
    let v ← entryValue e.2 params
    return acc + v * input.getD e.1 0) 0

def gatherGroup (amplitudes : Array (Cartesian α)) (indices : List Nat) :
    Except SimulationError (Array (Cartesian α)) := do
  let read ← indices.mapM fun i =>
    match amplitudes[i]? with
    | some z => .ok z
    | none => .error (.indexOutside i amplitudes.size)
  return read.toArray

def applyGroup (rows : List (SparseRow α)) (params : List α) (amplitudes : Array (Cartesian α))
    (indices : List Nat) : Except SimulationError (Array (Cartesian α)) := do
  let input ← gatherGroup amplitudes indices
  (rows.zip indices).foldlM (fun amps r => do
    let v ← rowValue params input r.1
    return amps.setIfInBounds r.2 v) amplitudes

/-- The amplitude indices of a group when the bits of `free` number the groups. -/
def groupIndices (offsets : List UInt64) (free : UInt64) (group : Nat) : List Nat :=
  let base := Bits.deposit (UInt64.ofNat group) free
  offsets.map fun o => (base ||| o).toNat

def runKernel (rows : List (SparseRow α)) (offsets : List UInt64) (arity : Nat) : KernelFn α :=
  fun amplitudes numQubits mask params =>
    if numQubits < arity then .error (.indexOutside arity numQubits)
    else
      let free := ~~~mask &&& Bits.fullMask numQubits
      (List.range (Nat.pow 2 (numQubits - arity))).foldlM
        (fun amps group => applyGroup rows params amps (groupIndices offsets free group)) amplitudes

/-- Compile a kernel; its matrix has to be the square of its group size. -/
def compileKernel (spec : KernelSpec α) : Except BackendError (KernelFn α) :=
  let dim := spec.dim
  if spec.matrix.size = dim * dim then
    .ok (runKernel (sparseRows spec) spec.indexing.offsets spec.arity)
  else .error (.simulation (.matrixShape spec.id (dim * dim) spec.matrix.size))

/-- Fill successive pairs of a buffer with the values of slots; a slot without a value becomes
undefined. -/
def fillSlots (p : Preparation α) (values : List α) : List (ParameterSlot α) → List α → List α
  | s :: slots, _ :: _ :: rest =>
    let z := (s.expr.evaluate (p.lookup values)).getD ⟨Scalar.nan, Scalar.nan⟩
    z.re :: z.im :: fillSlots p values slots rest
  | _, buffer => buffer

def compilePreparation (p : Preparation α) : Except BackendError (PrepareFn α) :=
  .ok fun values buffer => fillSlots p values p.slots buffer

def backend : Backend α := ⟨"interpreter", compileKernel, compilePreparation⟩

end GateFusion.Interpreter
