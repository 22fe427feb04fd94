import GateFusion.Simulation.Statevector

/-!
# Sampling

Measurement outcomes of a state, and random states. Random numbers are values: a draw is a number in
`[0, 1)`, and a sequence of draws is a function of its position.
-/

namespace GateFusion.Statevector
variable {α : Type} [Scalar α]

/-- The first index at which the running sum of probabilities exceeds `r`. -/
def firstAbove (r : α) : List (Cartesian α) → Nat → α → Option Nat
  | [], _, _ => none
  | z :: zs, i, cumulative =>
    let cumulative := cumulative + z.normSq
    if r < cumulative then some i else firstAbove r zs (i + 1) cumulative

/-- The outcome of a measurement for one draw. Rounding may leave the draw just above the last sum;
the last index is taken then. -/
def sample (s : Statevector α) (draw : α) : Nat :=
  (firstAbove (draw * s.normSq) s.amplitudes.toList 0 0).getD (s.amplitudes.size - 1)

/-- The bits of an outcome, qubit 0 first, at least one for every qubit. -/
def bitstring (s : Statevector α) (outcome : Nat) : String :=
  let digits := Nat.toDigits 2 outcome
  String.ofList (List.replicate (s.numQubits - digits.length) '0' ++ digits).reverse

def sampleCounts (s : Statevector α) (shots : Nat) (draws : Nat → α) : OrderedMap String Nat :=
  (List.range shots).foldl (fun counts i =>
    OrderedMap.upsert compare (s.bitstring (s.sample (draws i))) (fun c => c.getD 0 + 1) counts) []

/-- A normalized state: two draws for the parts of each amplitude, centred at zero. -/
def random (numQubits : Nat) (draws : Nat → α) : Statevector α :=
  let raw := (List.range (Nat.pow 2 numQubits)).map fun i =>
    Cartesian.mk (draws (2 * i) - 0.5) (draws (2 * i + 1) - 0.5)
  let norm := Scalar.sqrt (Scalar.sum (raw.map Cartesian.normSq))
  let scaled := if 0 < norm then raw.map fun z => z.divReal norm else raw
  ⟨scaled.toArray, numQubits⟩

end GateFusion.Statevector
