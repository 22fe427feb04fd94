import GateFusion.Circuit.Order

/-!
# Replacing two blocks by one

Two adjacent blocks without a dependency through a third one give way to a single block on the union
of their qubits. It is spliced into the wires where they stood and takes over the rank of the
earlier one; ranks that no longer increase along links are then handed out anew, within the blocks
concerned.
-/

namespace GateFusion.CircuitGraph
variable {α : Type}

/-- The place of a block on a wire: the slots before and after it. -/
structure Splice where
  qubit : Qubit
  before : Option Nat
  after : Option Nat

def removeBlock (g : CircuitGraph α) (slot : Nat) : CircuitGraph α :=
  { g with
    slots := g.slots.setIfInBounds slot none
    free := slot :: g.free
    links := g.links.filter fun l => l.source ≠ slot ∧ l.target ≠ slot }

def setRank (g : CircuitGraph α) (slot rank : Nat) : CircuitGraph α :=
  match g.blockAt? slot with
  | some b => { g with slots := g.slots.setIfInBounds slot (some { b with rank := rank }) }
  | none => g

/-- Link a block to what precedes it on a wire, or make it the head. -/
def linkBefore (slot : Nat) (s : Splice) (g : CircuitGraph α) : CircuitGraph α :=
  match s.before with
  | some p => { g with links := ⟨p, slot, s.qubit⟩ :: g.links }
  | none => { g with heads := g.heads.setIfInBounds s.qubit (some slot) }

/-- Link a block to what follows it on a wire, or make it the tail. -/
def linkAfter (slot : Nat) (s : Splice) (g : CircuitGraph α) : CircuitGraph α :=
  match s.after with
  | some n => { g with links := ⟨slot, n, s.qubit⟩ :: g.links }
  | none => { g with tails := g.tails.setIfInBounds s.qubit (some slot) }

/-- Re-rank after the block in `slot` took over the rank of the earlier half of a merge.
Predecessors from the later half may rank above it. They and their ancestors above its rank move
down, it and its descendants below the highest of them move up, and both share the ranks they
held. -/
def restoreOrder (g : CircuitGraph α) (slot : Nat) : CircuitGraph α :=
  let lower := g.rankAt slot
  let late := (g.predecessors slot).filter fun p => lower < g.rankAt p
  match (late.map g.rankAt).max? with
  | none => g
  | some upper =>
    let byRank := fun a b => decide (g.rankAt a ≤ g.rankAt b)
    let forward :=
      (explore g.successors (fun n => g.rankAt n < upper) g.liveSlots [slot] []).mergeSort byRank
    let backward :=
      (explore g.predecessors (fun n => lower < g.rankAt n) g.liveSlots late []).mergeSort byRank
    let moved := backward ++ forward
    let pool := (moved.map g.rankAt).mergeSort
    (moved.zip pool).foldl (fun g m => g.setRank m.1 m.2) g

/-- The qubits of two gates, those of the first before the others of the second. -/
def unionInOrder (first second : Gate α) : List Qubit :=
  first.qubits ++ second.qubits.filter fun q => !first.actsOn q

/-- Replace two blocks, given as earlier and later, without any check. -/
def merge (g : CircuitGraph α) (earlier later : BlockId) (first second : Block α)
    (fused : Gate α) : BlockId × CircuitGraph α :=
  let origins := (first.origins ++ second.origins).mergeSort
  let splices := (unionInOrder first.gate second.gate).map fun q =>
    let front := if first.gate.actsOn q then earlier else later
    let back := if second.gate.actsOn q then later else earlier
    Splice.mk q ((g.prevOn? front q).map (·.slot)) ((g.nextOn? back q).map (·.slot))
  let (slot, inserted) :=
    ((g.removeBlock earlier.slot).removeBlock later.slot).insertBlock fused origins
  let spliced := splices.foldl (fun g s => linkAfter slot s (linkBefore slot s g))
    (inserted.setRank slot first.rank)
  (⟨slot, g.nextSeq⟩, spliced.restoreOrder slot)

/-- Two blocks as earlier and later, with their names, if they are fusable neighbours and the gate
for both acts on exactly the union of their qubits. -/
def checkPair (g : CircuitGraph α) (a b : BlockId) (fused : Gate α) :
    Except (CircuitError α) ((BlockId × Block α) × (BlockId × Block α)) := do
  let _ ← g.live a
  let _ ← g.live b
  match g.adjacency a b with
  | none => .error (.wiring (.notAdjacent a b))
  | some (earlier, later) =>
    if g.hasIndirectPath earlier later then
      .error (.wiring (.linkedThroughAnother earlier later))
    else
      let first ← g.live earlier
      let second ← g.live later
      let union := unionInOrder first.gate second.gate
      if fused.numQubits = union.length ∧ union.all fused.actsOn then
        .ok ((earlier, first), (later, second))
      else .error (.wiring (.qubitsDiffer fused.qubits union earlier later))

/-- Replace two fusable neighbours by one block. -/
def exchange (a b : BlockId) (fused : Gate α) : Change α BlockId := do
  let g ← get
  let (e, l) ← liftExcept (g.checkPair a b fused)
  modifyGet (merge · e.1 l.1 e.2 l.2 fused)

def replace (g : CircuitGraph α) (a b : BlockId) (fused : Gate α) :
    Except (CircuitError α) (BlockId × CircuitGraph α) := (exchange a b fused).result g

end GateFusion.CircuitGraph
