import GateFusion.Circuit.Graph

/-!
# Circuits

A circuit is a named graph to which gates are added in program order, and a few circuits that are
built from their size alone.
-/

namespace GateFusion

structure Circuit (α : Type) where
  name : String
  graph : CircuitGraph α

namespace Circuit
variable {α : Type}

def empty (name : String) (numQubits : Nat) : Except (CircuitError α) (Circuit α) := do
  return ⟨name, ← CircuitGraph.empty numQubits⟩

def add (c : Circuit α) (gate : Gate α) : Except (CircuitError α) (Circuit α) := do
  return { c with graph := (← c.graph.addBlock gate).2 }

/-- A gate of the standard library and the qubits it is placed on. -/
abbrev Placement (α : Type) := StandardGate α × List Qubit

variable [Scalar α]

def apply (c : Circuit α) (p : Placement α) : Except (CircuitError α) (Circuit α) := do
  c.add (← Gate.standard p.1 p.2)

/-- The circuit of the standard gates that `placements` lists for a register. -/
def ofPlacements (name : String) (placements : Nat → List (Placement α)) (numQubits : Nat) :
    Except (CircuitError α) (Circuit α) := do
  let c ← empty name numQubits
  (placements numQubits).foldlM apply c

def bell : Except (CircuitError α) (Circuit α) :=
  ofPlacements "bell" (fun _ => [(.h, [0]), (.cx, [0, 1])]) 2

def ghzPlacements (n : Nat) : List (Placement α) :=
  if n = 0 then [] else (.h, [0]) :: (List.range (n - 1)).map fun i => (.cx, [i, i + 1])

def ghz (n : Nat) : Except (CircuitError α) (Circuit α) :=
  ofPlacements "ghz" ghzPlacements n

/-- For each qubit a Hadamard gate and phases controlled by the qubits after it, halved with the
distance; at last the swaps that reverse the order of the qubits. -/
def qftPlacements (n : Nat) : List (Placement α) :=
  let phases := (List.range n).flatMap fun i =>
    (.h, [i]) :: (List.range' (i + 1) (n - (i + 1))).map fun j =>
      (.cp (.constant (Scalar.pi / ((Nat.pow 2 (min (j - i) 31) : Nat) : α))), [j, i])
  phases ++ (List.range (n / 2)).map fun i => (.swap, [i, n - 1 - i])

def qft (n : Nat) : Except (CircuitError α) (Circuit α) :=
  ofPlacements "qft" qftPlacements n

/-- Layers of rotations with a symbol each, every layer ending in a ladder of controlled gates. -/
def variationalPlacements (layers n : Nat) : List (Placement α) :=
  (List.range layers).flatMap fun layer =>
    ((List.range n).flatMap fun q =>
      [(.ry (.symbol s!"theta_{layer}_{q}"), [q]), (.rz (.symbol s!"phi_{layer}_{q}"), [q])]) ++
    (List.range (n - 1)).map fun q => (.cx, [q, q + 1])

def variational (n layers : Nat) : Except (CircuitError α) (Circuit α) :=
  ofPlacements "variational" (variationalPlacements layers) n

end Circuit
end GateFusion
