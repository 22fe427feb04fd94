import GateFusion.CompileError
import GateFusion.Kernel.Bits

/-!
# Amplitude groups

A gate on `k` of `n` qubits splits the `2^n` amplitude indices into `2^(n-k)` groups of `2^k`. A
group is given by a base with all target bits clear; its members are the base with the offset of
each gate-local index, whose bit `i` is the state of the gate's `i`-th qubit. The base of a group
number is found in two ways that agree: by inserting a zero bit at every target position, and by
depositing the number into the positions left free.
-/

namespace GateFusion

/-- Precomputed index arithmetic of a gate on `numQubits` qubits. -/
structure Indexing where
  numQubits : Nat
  qubits : List Qubit
  sortedBits : List Nat
  mask : UInt64
  offsets : List UInt64

namespace Indexing

/-- The offset of a gate-local index: the masks of the qubits whose bit is set. -/
def offset : List Qubit → Nat → UInt64
  | [], _ => 0
  | q :: qs, j => (if j % 2 = 1 then Qubit.mask q else 0) ||| offset qs (j / 2)

/-- The index arithmetic of a gate, all of whose qubits have to be in the register. -/
def ofQubits {α : Type} (qubits : List Qubit) (numQubits : Nat) :
    Except (CompileError α) Indexing :=
  if maxIndexWidth < numQubits then .error (.circuit (.arityOverflow numQubits "statevector"))
  else
    match qubits.find? fun q => numQubits ≤ q with
    | some q => .error (.qubitOutOfRange q numQubits)
    | none => .ok {
        numQubits, qubits
        sortedBits := qubits.mergeSort
        mask := Qubit.maskOf qubits
        offsets := (List.range (Nat.pow 2 qubits.length)).map (offset qubits) }

def arity (d : Indexing) : Nat := d.qubits.length

def numGroups (d : Indexing) : Nat := Nat.pow 2 (d.numQubits - d.qubits.length)

def groupSize (d : Indexing) : Nat := d.offsets.length

def insertZero (base : UInt64) (bit : Nat) : UInt64 :=
  let low := base &&& ((1 <<< UInt64.ofNat bit) - 1)
  ((base ^^^ low) <<< 1) ||| low

/-- The base of a group, by inserting zeros from the lowest target position up. -/
def baseMasked (d : Indexing) (group : UInt64) : UInt64 :=
  d.sortedBits.foldl insertZero group

/-- The base of a group, by depositing its number into the free positions. -/
def baseDeposit (d : Indexing) (group : UInt64) : UInt64 :=
  Bits.deposit group (~~~d.mask &&& Bits.fullMask d.numQubits)

def group (d : Indexing) (g : UInt64) : List UInt64 :=
  d.offsets.map fun o => d.baseMasked g ||| o

end Indexing
end GateFusion
