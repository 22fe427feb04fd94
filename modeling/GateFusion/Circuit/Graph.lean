import GateFusion.Gate.Compose

/-!
# Circuit graphs

A circuit is a graph of gate blocks. Every declared qubit has a wire: the chain of blocks that act
on it, joined by links from the earlier to the later block. A name pairs the slot of a block with
its creation number, so the name of a block that is gone never resolves again.

The blocks live in an arena with stable slots, and what the graph takes for granted of the arena is
written into its operations: a slot that is freed is handed out again, the one freed last first; the
links of a block are listed with the newest first, and there may be several between two blocks;
freeing a slot drops the links of its block; and the slots in use are listed in ascending order.
-/

namespace GateFusion

/-- A gate placed in a circuit. Ranks increase along every link; the origins are the numbers of the
added gates that were merged into the block, ascending. -/
structure Block (α : Type) where
  gate : Gate α
  seq : Nat
  rank : Nat
  origins : List Nat

/-- Two blocks, by their slots, that follow each other on a wire. -/
structure Link where
  source : Nat
  target : Nat
  qubit : Qubit
deriving DecidableEq

/-- How many gates a graph takes: their numbers are 32-bit words, as are the indices of slots. -/
def maxGates : Nat := 4294967295

/-- Blocks in slots, and the first and last block of every wire. -/
structure CircuitGraph (α : Type) where
  slots : Array (Option (Block α))
  /-- The freed slots, to be used again from the front. -/
  free : List Nat
  /-- The links of all blocks, the newest first. -/
  links : List Link
  heads : Array (Option Nat)
  tails : Array (Option Nat)
  /-- The creation number of the next block, a 64-bit word. Every block is a gate or replaces two
  blocks, so there are fewer than twice as many as gates, and the numbers never run out. -/
  nextSeq : Nat
  /-- The number of the next gate, a 32-bit word: no gate is taken once it reaches `maxGates`. -/
  nextOrigin : Nat

namespace CircuitGraph
variable {α : Type}

def empty (numQubits : Nat) : Except (CircuitError α) (CircuitGraph α) := do
  checkIndexWidth numQubits "circuit register"
  let ends := Array.replicate numQubits none
  return ⟨#[], [], [], ends, ends, 0, 0⟩

def numQubits (g : CircuitGraph α) : Nat := g.heads.size

def blockAt? (g : CircuitGraph α) (slot : Nat) : Option (Block α) := g.slots[slot]?.join

def liveSlots (g : CircuitGraph α) : List Nat :=
  (List.range g.slots.size).filter fun s => (g.blockAt? s).isSome

def numBlocks (g : CircuitGraph α) : Nat := g.liveSlots.length

def idAt? (g : CircuitGraph α) (slot : Nat) : Option BlockId :=
  (g.blockAt? slot).map fun b => ⟨slot, b.seq⟩

def block? (g : CircuitGraph α) (id : BlockId) : Option (Block α) :=
  (g.blockAt? id.slot).filter fun b => b.seq = id.seq

def contains (g : CircuitGraph α) (id : BlockId) : Bool := (g.block? id).isSome

/-- The block of a name, or the error that it is gone. -/
def live (g : CircuitGraph α) (id : BlockId) : Except (CircuitError α) (Block α) :=
  match g.block? id with
  | some b => .ok b
  | none => .error (.invalidBlock id)

/-- Put a new block, ranked by its creation number, into the next slot. -/
def insertBlock (g : CircuitGraph α) (gate : Gate α) (origins : List Nat) :
    Nat × CircuitGraph α :=
  let block : Block α := ⟨gate, g.nextSeq, g.nextSeq, origins⟩
  match g.free with
  | slot :: rest =>
    (slot, { g with
      slots := g.slots.setIfInBounds slot (some block), free := rest, nextSeq := g.nextSeq + 1 })
  | [] =>
    (g.slots.size, { g with slots := g.slots.push (some block), nextSeq := g.nextSeq + 1 })

def appendToWire (slot : Nat) (g : CircuitGraph α) (q : Qubit) : CircuitGraph α :=
  match g.tails[q]?.join with
  | some tail =>
    { g with links := ⟨tail, slot, q⟩ :: g.links, tails := g.tails.setIfInBounds q (some slot) }
  | none =>
    { g with
      heads := g.heads.setIfInBounds q (some slot), tails := g.tails.setIfInBounds q (some slot) }

/-- A change of a graph in place. An error stops it, and what was written before stays written. -/
abbrev Change (α β : Type) := ExceptT (CircuitError α) (StateM (CircuitGraph α)) β

/-- The graph that a change leaves behind, whether it ends with a result or with an error. -/
def Change.graph {β : Type} (c : Change α β) (g : CircuitGraph α) : CircuitGraph α := (c.run g).2

/-- The result of a change with the graph it leaves behind, or its error. -/
def Change.result {β : Type} (c : Change α β) (g : CircuitGraph α) :
    Except (CircuitError α) (β × CircuitGraph α) :=
  match c.run g with
  | (.ok b, g') => .ok (b, g')
  | (.error e, _) => .error e

/-- Refuse a gate that acts on nothing, or on qubits that are not declared, or that no number is
left for. -/
def checkGate (g : CircuitGraph α) (gate : Gate α) : Except (CircuitError α) Unit :=
  if gate.qubits.isEmpty then .error (.wiring (.actsOnNothing gate.name))
  else
    match gate.qubits.find? fun q => g.numQubits ≤ q with
    | some q => .error (.qubitNotFound q g.numQubits gate.name)
    | none => if maxGates ≤ g.nextOrigin then .error .outOfNumbers else .ok ()

/-- Add a gate at the end of every wire it acts on. -/
def append (gate : Gate α) : Change α BlockId := do
  let g ← get
  liftExcept (g.checkGate gate)
  let slot ← modifyGet (insertBlock · gate [g.nextOrigin])
  modify (gate.qubits.foldl (appendToWire slot) ·)
  modify fun wired => { wired with nextOrigin := g.nextOrigin + 1 }
  return ⟨slot, g.nextSeq⟩

def addBlock (g : CircuitGraph α) (gate : Gate α) :
    Except (CircuitError α) (BlockId × CircuitGraph α) := (append gate).result g

def successors (g : CircuitGraph α) (slot : Nat) : List Nat :=
  (g.links.filter fun l => l.source = slot).map (·.target)

def predecessors (g : CircuitGraph α) (slot : Nat) : List Nat :=
  (g.links.filter fun l => l.target = slot).map (·.source)

def prevOn? (g : CircuitGraph α) (id : BlockId) (q : Qubit) : Option BlockId := do
  let _ ← g.block? id
  let link ← g.links.find? fun l => l.target = id.slot ∧ l.qubit = q
  g.idAt? link.source

def nextOn? (g : CircuitGraph α) (id : BlockId) (q : Qubit) : Option BlockId := do
  let _ ← g.block? id
  let link ← g.links.find? fun l => l.source = id.slot ∧ l.qubit = q
  g.idAt? link.target

def head? (g : CircuitGraph α) (q : Qubit) : Option BlockId := g.heads[q]?.join.bind g.idAt?

def tail? (g : CircuitGraph α) (q : Qubit) : Option BlockId := g.tails[q]?.join.bind g.idAt?

/-- The blocks from a block to the end of a wire, at most `fuel` of them. -/
def chain (g : CircuitGraph α) (q : Qubit) : Nat → Option BlockId → List BlockId
  | 0, _ => []
  | _ + 1, none => []
  | fuel + 1, some id => id :: g.chain q fuel (g.nextOn? id q)

def wire (g : CircuitGraph α) (q : Qubit) : List BlockId :=
  g.chain q g.numBlocks (g.head? q)

/-- The distinct blocks next to a block on its wires, in its qubit order, earlier ones first. -/
def neighbors (g : CircuitGraph α) (id : BlockId) : List BlockId :=
  match g.block? id with
  | none => []
  | some b =>
    (b.gate.qubits.flatMap fun q => (g.prevOn? id q).toList ++ (g.nextOn? id q).toList).foldl
      (fun acc n => if acc.contains n then acc else acc ++ [n]) []

/-- Two blocks as earlier and later if they share a qubit and on every shared qubit the earlier one
immediately precedes the later one. -/
def adjacency (g : CircuitGraph α) (a b : BlockId) : Option (BlockId × BlockId) :=
  if a = b then none
  else
    match g.block? a, g.block? b with
    | some blockA, some blockB =>
      let orders := (blockA.gate.qubits.filter blockB.gate.actsOn).map fun q =>
        if g.nextOn? a q = some b then some (a, b)
        else if g.nextOn? b q = some a then some (b, a)
        else none
      match orders with
      | [] => none
      | order :: rest => if rest.all (· = order) then order else none
    | _, _ => none

def unionArity (g : CircuitGraph α) (a b : BlockId) : Option Nat := do
  let blockA ← g.block? a
  let blockB ← g.block? b
  return blockA.gate.numQubits + blockB.gate.qubits.countP fun q => !blockA.gate.actsOn q

end CircuitGraph
end GateFusion
