import GateFusion.Circuit.Order

/-!
# Merge candidates

The pairs of blocks that may be merged, cheapest first. Beside the queue an index lists for every
block the keys of the candidates that mention it, so that they can be dropped when the block goes.
-/

namespace GateFusion

/-- Rank of a candidate: the fused cost, then the creation numbers of the two blocks. -/
structure CandidateKey (α : Type) where
  cost : α
  earlierSeq : Nat
  laterSeq : Nat

/-- Two blocks and the gate that would replace them. -/
structure Candidate (α : Type) where
  earlier : BlockId
  later : BlockId
  fused : Gate α

def CandidateKey.cmp {α : Type} [Scalar α] (a b : CandidateKey α) : Ordering :=
  ((Scalar.totalCmp a.cost b.cost).then (compare a.earlierSeq b.earlierSeq)).then
    (compare a.laterSeq b.laterSeq)

/-- The candidates in ascending key order and the keys that mention each block. -/
structure CandidateSet (α : Type) where
  queue : OrderedMap (CandidateKey α) (Candidate α)
  byBlock : List (BlockId × List (CandidateKey α))

namespace CandidateSet
variable {α : Type} [Scalar α]

def empty : CandidateSet α := ⟨[], []⟩

def keysOf (s : CandidateSet α) (id : BlockId) : List (CandidateKey α) :=
  (s.byBlock.lookup id).getD []

def index (id : BlockId) (key : CandidateKey α) :
    List (BlockId × List (CandidateKey α)) → List (BlockId × List (CandidateKey α))
  | [] => [(id, [key])]
  | (i, keys) :: rest =>
    if i = id then (i, keys ++ [key]) :: rest else (i, keys) :: index id key rest

/-- Strike a key from the list of a block, and the list once it is empty. -/
def unindex (id : BlockId) (key : CandidateKey α) :
    List (BlockId × List (CandidateKey α)) → List (BlockId × List (CandidateKey α))
  | [] => []
  | (i, keys) :: rest =>
    if i = id then
      let left := keys.filter fun k => k.cmp key != .eq
      if left.isEmpty then rest else (i, left) :: rest
    else (i, keys) :: unindex id key rest

def insert (s : CandidateSet α) (key : CandidateKey α) (c : Candidate α) : CandidateSet α :=
  ⟨OrderedMap.insert CandidateKey.cmp key c s.queue,
    index c.later key (index c.earlier key s.byBlock)⟩

def pop? (s : CandidateSet α) : Option (Candidate α × CandidateSet α) :=
  match s.queue with
  | [] => none
  | (key, c) :: rest => some (c, ⟨rest, unindex c.later key (unindex c.earlier key s.byBlock)⟩)

theorem length_queue_pop? {s t : CandidateSet α} {c : Candidate α} (h : s.pop? = some (c, t)) :
    t.queue.length < s.queue.length := by
  unfold pop? at h
  split at h
  · simp at h
  · rename_i hq
    simp only [Option.some.injEq, Prod.mk.injEq] at h
    simp [← h.2, hq]

/-- Drop the candidate of a key that is listed for a block. -/
def dropKey (id : BlockId) (s : CandidateSet α) (key : CandidateKey α) : CandidateSet α :=
  match OrderedMap.get? CandidateKey.cmp key s.queue with
  | none => s
  | some c =>
    let other := if c.earlier = id then c.later else c.earlier
    ⟨OrderedMap.erase CandidateKey.cmp key s.queue, unindex other key s.byBlock⟩

/-- Drop every candidate that mentions a block. -/
def retire (s : CandidateSet α) (id : BlockId) : CandidateSet α :=
  (s.keysOf id).foldl (dropKey id) { s with byBlock := s.byBlock.filter fun e => e.1 ≠ id }

end CandidateSet
end GateFusion
