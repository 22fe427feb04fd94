import GateFusion.Circuit.Order

/-!
# Integrity of a graph

A check of the wiring from outside: no cycle, ranks increase along links, links join blocks that act
on their qubit, and every wire is one chain from head to tail that visits each of its blocks once.
-/

namespace GateFusion.CircuitGraph
variable {α : Type}

def touches (g : CircuitGraph α) (slot : Nat) (q : Qubit) : Bool :=
  match g.blockAt? slot with
  | some b => b.gate.actsOn q
  | none => false

/-- Ranks increase along the link and both its blocks act on its qubit. -/
def checkLink (g : CircuitGraph α) (l : Link) : Except (CircuitError α) Unit :=
  if !(g.rankAt l.source < g.rankAt l.target) then .error (.wiring (.againstRanks l.qubit))
  else if !(g.touches l.source l.qubit && g.touches l.target l.qubit) then
    .error (.wiring (.linksUntouched l.qubit))
  else .ok ()

/-- Follow a wire from `current`, after the block in slot `last`, through at most `fuel` blocks.
The result is the last slot and the number of blocks visited. -/
def walk (g : CircuitGraph α) (q : Qubit) (fuel steps : Nat) (last : Option Nat)
    (current : Option BlockId) : Except (CircuitError α) (Option Nat × Nat) :=
  match current with
  | none => .ok (last, steps)
  | some id => do
    let block ← g.live id
    if !block.gate.actsOn q then .error (.wiring (.onForeignWire id q))
    else if (g.prevOn? id q).map (·.slot) ≠ last then .error (.wiring (.broken q id))
    else
      match fuel with
      | 0 => .error (.wiring (.unending q))
      | fuel + 1 => g.walk q fuel (steps + 1) (some id.slot) (g.nextOn? id q)

/-- Follow the wire of a qubit to its tail and count its blocks. -/
def checkWire (g : CircuitGraph α) (q : Qubit) : Except (CircuitError α) Nat := do
  let (last, steps) ← g.walk q g.numBlocks 0 none (g.head? q)
  if last = g.tails[q]?.join then .ok steps else .error (.wiring (.wrongTail q))

def total (ns : List Nat) : Nat := ns.foldr (· + ·) 0

/-- Check the whole graph. A graph has a cycle exactly if its execution order cannot list all
blocks, which stands in for a search for cycles. -/
def verifyIntegrity (g : CircuitGraph α) : Except (CircuitError α) Unit := do
  if g.order.length ≠ g.numBlocks then throw (.wiring .cycle)
  g.links.forM g.checkLink
  let visits ← (List.range g.numQubits).mapM g.checkWire
  let visited := total visits
  let expected := total ((g.liveSlots.filterMap g.blockAt?).map fun b => b.gate.numQubits)
  if visited = expected then .ok ()
  else .error (.wiring (.visitCount visited expected))

end GateFusion.CircuitGraph
