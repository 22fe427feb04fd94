/-!
# Qubits

A qubit is its index in the register, which is also its bit position in an amplitude index:
amplitude `i` has qubit `q` in the state one iff bit `q` of `i` is set.
-/

namespace GateFusion

/-- Index of a qubit in the register. -/
abbrev Qubit := Nat

/-- Widest index space: one bit of a 64-bit index is kept free. -/
def maxIndexWidth : Nat := 63

namespace Qubit

def text (q : Qubit) : String := s!"q{q}"

def listText (qs : List Qubit) : String :=
  "[" ++ ", ".intercalate (qs.map fun q => s!"QubitId({q})") ++ "]"

def mask (q : Qubit) : UInt64 := 1 <<< UInt64.ofNat q

def maskOf (qs : List Qubit) : UInt64 :=
  qs.foldl (fun m q => m ||| mask q) 0

end Qubit
end GateFusion
