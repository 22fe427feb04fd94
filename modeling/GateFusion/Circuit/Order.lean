import GateFusion.Circuit.Graph

/-!
# Dependency order

Which blocks depend on which. A search follows links through slots that pass a test. The execution
order counts for every block the links into it that are still to come; a block whose count is down
to zero is queued by its age, and taking it lowers the count of a block once for every link to it.
-/

namespace GateFusion.CircuitGraph
variable {α : Type}

/-- The slots reached from a stack of slots through unseen slots that pass a test. -/
def explore (step : Nat → List Nat) (keep : Nat → Bool) (unseen stack reached : List Nat) :
    List Nat :=
  match stack with
  | [] => reached
  | n :: rest =>
    if n ∈ unseen ∧ keep n = true then
      explore step keep (unseen.erase n) (step n ++ rest) (reached ++ [n])
    else explore step keep unseen rest reached
termination_by (unseen.length, stack.length)
decreasing_by
  · rename_i h
    have := List.length_erase_of_mem h.1
    have := List.length_pos_of_mem h.1
    exact Prod.Lex.left _ _ (by omega)
  · exact Prod.Lex.right _ (by simp)

def rankAt (g : CircuitGraph α) (slot : Nat) : Nat :=
  match g.blockAt? slot with
  | some b => b.rank
  | none => 0

/-- Whether `later` depends on `earlier` through a third block. As ranks increase along links, only
blocks ranked up to `later` are searched. -/
def hasIndirectPath (g : CircuitGraph α) (earlier later : BlockId) : Bool :=
  g.contains earlier && g.contains later &&
    let bound := g.rankAt later.slot
    let seeds := (g.successors earlier.slot).filter (· ≠ later.slot)
    (explore g.successors (fun n => g.rankAt n ≤ bound) g.liveSlots seeds []).contains later.slot

/-- Two blocks as earlier and later if they are adjacent, act on at most `maxArity` qubits together
and do not depend on each other through a third block. -/
def fusable (g : CircuitGraph α) (a b : BlockId) (maxArity : Nat) : Option (BlockId × BlockId) := do
  let (earlier, later) ← g.adjacency a b
  let arity ← g.unionArity a b
  if maxArity < arity || g.hasIndirectPath earlier later then none else some (earlier, later)

/-- Older blocks come first, and of equally old ones the lower slot. -/
def older (a b : BlockId) : Bool := a.seq < b.seq || (a.seq == b.seq && a.slot < b.slot)

/-- Put a name into a queue that is in order of age. -/
def enqueue (id : BlockId) : List BlockId → List BlockId
  | [] => [id]
  | next :: rest => if older id next then id :: next :: rest else next :: enqueue id rest

/-- The queue of blocks that may be taken, and the number of links into every other block that start
from blocks not taken yet. -/
structure Pending where
  ready : List BlockId
  inDegree : OrderedMap Nat Nat

namespace Pending

def count (g : CircuitGraph α) (p : Pending) (slot : Nat) : Pending :=
  match g.idAt? slot with
  | none => p
  | some id =>
    let degree := (g.predecessors slot).length
    if degree = 0 then { p with ready := enqueue id p.ready }
    else { p with inDegree := OrderedMap.insert compare slot degree p.inDegree }

def release (g : CircuitGraph α) (p : Pending) (slot : Nat) : Pending :=
  match OrderedMap.get? compare slot p.inDegree with
  | none => p
  | some degree =>
    let left := degree - 1
    let ready :=
      match left, g.idAt? slot with
      | 0, some id => enqueue id p.ready
      | _, _ => p.ready
    ⟨ready, OrderedMap.insert compare slot left p.inDegree⟩

/-- Take the first block of the queue, count the links from it as done, and go on, for at most
`fuel` blocks. -/
def take (g : CircuitGraph α) : Nat → Pending → List BlockId
  | 0, _ => []
  | fuel + 1, p =>
    match p.ready with
    | [] => []
    | id :: rest => id :: take g fuel ((g.successors id.slot).foldl (release g) ⟨rest, p.inDegree⟩)

end Pending

/-- The names of all blocks in execution order: a block comes after its predecessors on every wire,
and among the blocks that may come next the oldest does. -/
def order (g : CircuitGraph α) : List BlockId :=
  Pending.take g g.numBlocks (g.liveSlots.foldl (Pending.count g) ⟨[], []⟩)

def blocks (g : CircuitGraph α) : List (BlockId × Block α) :=
  g.order.filterMap fun id => (g.block? id).map fun b => (id, b)

end GateFusion.CircuitGraph
