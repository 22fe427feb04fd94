import GateFusion.Circuit.Replace
import GateFusion.CompileError
import GateFusion.Fusion.Candidates
import GateFusion.Fusion.Cost

/-!
# Greedy gate fusion

The engine scores every pair of fusable neighbours, merges the cheapest candidate, drops the
candidates that mention a merged block, and scores the new block against its neighbours, until no
candidate is left. The result depends only on the graph and the configuration.
-/

namespace GateFusion

/-- Summary of a run. Stale candidates are those that were no longer fusable when their turn
came. -/
structure FusionReport (α : Type) where
  blocksBefore : Nat
  blocksAfter : Nat
  merges : Nat
  staleCandidates : Nat
  costBefore : α
  costAfter : α

/-- A configuration and the model that costs are estimated with. -/
structure FusionEngine (α : Type) [Scalar α] where
  config : FusionConfig α
  model : CostModel α

namespace FusionEngine
variable {α : Type} [Scalar α]

/-- An engine with a model of the caller's choice; the configuration has to be in range. -/
def withCostModel (config : FusionConfig α) (model : CostModel α) :
    Except (CompileError α) (FusionEngine α) := do
  config.validate.mapError .config
  return ⟨config, model⟩

def ofConfig (config : FusionConfig α) : Except (CompileError α) (FusionEngine α) :=
  withCostModel config (.naive config.cost)

/-- The sum of the costs of all blocks, in execution order. -/
def totalCost (e : FusionEngine α) (g : CircuitGraph α) : α :=
  Scalar.sum (g.blocks.map fun b => e.model.gateCost b.2.gate)

/-- Turn a pair of blocks into a candidate if it is fusable, admitted by the model and profitable.
Pairs whose cost would be too high without any nonzero entry are not composed. -/
def score (e : FusionEngine α) (g : CircuitGraph α) (a b : BlockId) :
    Except (CompileError α) (Option (CandidateKey α × Candidate α)) := do
  match g.fusable a b e.config.maxFusedArity with
  | none => return none
  | some (earlier, later) =>
    match g.block? earlier, g.block? later, g.unionArity earlier later with
    | some first, some second, some arity =>
      let before := e.model.gateCost first.gate + e.model.gateCost second.gate
      if !e.model.isProfitable before (e.model.estimate arity 0) then return none
      else
        let fused ← (Gate.compose first.gate second.gate).mapError .circuit
        let nonzero := e.model.countNonzero fused.matrix
        let after := e.model.estimate arity nonzero
        if e.model.admits nonzero && e.model.isProfitable before after then
          return some (⟨after, first.seq, second.seq⟩, ⟨earlier, later, fused⟩)
        else return none
    | _, _, _ => return none

def enqueue (e : FusionEngine α) (g : CircuitGraph α) (id : BlockId) (s : CandidateSet α)
    (neighbor : BlockId) : Except (CompileError α) (CandidateSet α) := do
  match ← e.score g id neighbor with
  | some (key, c) => return s.insert key c
  | none => return s

/-- The candidates of a graph; every pair is scored once, from its earlier block. -/
def candidates (e : FusionEngine α) (g : CircuitGraph α) :
    Except (CompileError α) (CandidateSet α) :=
  let pairs := g.order.flatMap fun id =>
    ((g.neighbors id).filter fun n => (g.adjacency id n).map (·.1) = some id).map fun n => (id, n)
  pairs.foldlM (fun s p => e.enqueue g p.1 s p.2) .empty

/-- Whether the graph still fuses a candidate's blocks in the same direction. -/
def isCurrent (e : FusionEngine α) (g : CircuitGraph α) (c : Candidate α) : Bool :=
  g.fusable c.earlier c.later e.config.maxFusedArity = some (c.earlier, c.later)

/-- Merge a candidate: drop what mentions its blocks, replace them, and score the new block. -/
def mergeCandidate (e : FusionEngine α) (g : CircuitGraph α) (s : CandidateSet α)
    (c : Candidate α) : Except (CompileError α) (CircuitGraph α × CandidateSet α) := do
  let left := (s.retire c.earlier).retire c.later
  let (id, merged) ← (g.replace c.earlier c.later c.fused).mapError .circuit
  return (merged, ← (merged.neighbors id).foldlM (e.enqueue merged id) left)

/-- A graph on the way, with the numbers of merges and of stale candidates so far. -/
structure Progress (α : Type) where
  graph : CircuitGraph α
  merges : Nat
  stale : Nat

/-- Merge candidates until none is left or `bound` merges are done. -/
def loop (e : FusionEngine α) (bound : Nat) (p : Progress α) (s : CandidateSet α) :
    Except (CompileError α) (Progress α) :=
  if _hb : p.merges < bound then
    match _h : s.pop? with
    | none => .ok p
    | some (c, rest) =>
      if e.isCurrent p.graph c then do
        let (graph, queue) ← e.mergeCandidate p.graph rest c
        loop e bound ⟨graph, p.merges + 1, p.stale⟩ queue
      else loop e bound { p with stale := p.stale + 1 } rest
  else .ok p
termination_by (bound - p.merges, s.queue.length)
decreasing_by
  · exact Prod.Lex.left _ _ (by omega)
  · exact Prod.Lex.right _ (CandidateSet.length_queue_pop? _h)

/-- Fuse a graph until no profitable merge is left. -/
def run (e : FusionEngine α) (g : CircuitGraph α) :
    Except (CompileError α) (FusionReport α × CircuitGraph α) := do
  let initial ← e.candidates g
  let done ← e.loop g.numBlocks ⟨g, 0, 0⟩ initial
  return (⟨g.numBlocks, done.graph.numBlocks, done.merges, done.stale,
    e.totalCost g, e.totalCost done.graph⟩, done.graph)

end FusionEngine
end GateFusion
