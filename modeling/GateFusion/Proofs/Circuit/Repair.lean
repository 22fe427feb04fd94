import GateFusion.Proofs.Circuit.Adjacency
import GateFusion.Proofs.Circuit.Rerank

/-!
# What the repair changes

Before the repair only links into one block may lead down in rank. The repair takes the ranks of two
regions that have no block in common and hands them out again, so that no block gets two ranks. All
links lead up afterwards, no rank is lost or added, and blocks outside the interval that the late
predecessors span keep theirs.
-/

namespace GateFusion.CircuitGraph
open Relation
variable {α : Type} {g : CircuitGraph α} {m : Nat}

/-- A graph without cycles and with distinct ranks, which increase along all links but those into
one block. -/
structure Disordered (g : CircuitGraph α) (m : Nat) : Prop where
  live : ∀ l ∈ g.links, l.source ∈ g.liveSlots ∧ l.target ∈ g.liveSlots
  mem : m ∈ g.liveSlots
  acyclic : ∀ a, ¬ TransGen g.Precedes a a
  distinct : (g.liveSlots.map g.rankAt).Nodup
  increases : ∀ l ∈ g.links, l.target ≠ m → g.rankAt l.source < g.rankAt l.target

/-- What the repair around a block does: `g'` is `g` but for the ranks. They increase along every
link and are those of `g`, handed out again from the rank of the block to the highest rank that
precedes it. -/
structure Repaired (g : CircuitGraph α) (m : Nat) (g' : CircuitGraph α) : Prop where
  reranked : Reranked g g' g'.rankAt
  ranked : g'.Ranked
  permuted : (g'.liveSlots.map g'.rankAt).Perm (g.liveSlots.map g.rankAt)
  kept : ∀ s ∈ g.liveSlots,
    ¬ (g.rankAt m ≤ g.rankAt s ∧ ∃ p ∈ g.predecessors m, g.rankAt s ≤ g.rankAt p) →
      g'.rankAt s = g.rankAt s
  unchanged : g.late m = [] → g' = g
  regions : ∀ upper, ((g.late m).map g.rankAt).max? = some upper →
    g' = ((g.backward m ++ g.forward m upper).zip
      (pool g.rankAt (g.backward m) (g.forward m upper))).foldl (fun g e => g.setRank e.1 e.2) g ∧
    (g.backward m).Disjoint (g.forward m upper) ∧ (g.backward m ++ g.forward m upper).Nodup

/-- Ranks are repaired around a block, and nowhere else. -/
theorem repaired_restoreOrder (h : g.Disordered m) : g.Repaired m (g.restoreOrder m) := by
  have hlive : ∀ a b, g.Precedes a b → a ∈ g.liveSlots ∧ b ∈ g.liveSlots := by
    rintro _ _ ⟨l, hl, rfl, rfl⟩
    exact h.live l hl
  have hinc : ∀ a b, g.Precedes a b → b ≠ m → g.rankAt a < g.rankAt b := by
    rintro _ _ ⟨l, hl, rfl, rfl⟩
    exact h.increases l hl
  obtain ⟨rank, hreranked, hgrows, hperm, hkept⟩ :=
    restoreOrder_spec hlive h.mem h.acyclic hinc h.distinct
  have hrank : ∀ s ∈ g.liveSlots, (g.restoreOrder m).rankAt s = rank s := fun s hs =>
    hreranked.rankAt hs
  constructor
  case reranked => exact hreranked.congr fun s hs => (hrank s hs).symm
  case ranked =>
    intro l hl
    rw [hreranked.links] at hl
    rw [hrank _ (h.live l hl).1, hrank _ (h.live l hl).2]
    exact hgrows _ _ ⟨l, hl, rfl, rfl⟩
  case permuted =>
    rw [hreranked.liveSlots, List.map_congr_left hrank]
    exact hperm
  case kept =>
    intro s hs hout
    rw [hrank s hs]
    refine hkept s ?_
    by_contra hin
    push Not at hin
    exact hout hin
  case unchanged =>
    intro hlate
    exact restoreOrder_of_none (by rw [hlate]; rfl)
  case regions =>
    intro upper hupper
    have hnodup := (regions_restored hlive h.mem h.acyclic hinc h.distinct hupper).nodup
    exact ⟨restoreOrder_of_some hupper, List.disjoint_of_nodup_append hnodup, hnodup⟩

section Sample

/-- The fused block in slot 5 ranks lowest, but two blocks precede it on the wires of the later
half. -/
def inherited : CircuitGraph Nat :=
  ⟨#[none, some ⟨clearedOn [0, 3], 1, 1, [1]⟩, some ⟨clearedOn [1, 3], 2, 2, [2]⟩,
    some ⟨clearedOn [0], 3, 3, [3]⟩, some ⟨clearedOn [4], 4, 4, [4]⟩,
    some ⟨clearedOn [1, 2, 0, 4], 6, 0, [0, 5]⟩], [0],
    [⟨5, 2, 1⟩, ⟨4, 5, 4⟩, ⟨3, 5, 0⟩, ⟨1, 3, 0⟩, ⟨1, 2, 3⟩],
    #[some 1, some 5, some 5, some 1, some 4], #[some 5, some 2, some 5, some 2, some 5], 7, 6⟩

lemma disordered_inherited : inherited.Disordered 5 := by
  refine ⟨by decide, by decide, ?_, by decide, by decide⟩
  apply acyclic_of_increasing ([0, 0, 4, 1, 2, 3].getD · 0)
  rintro _ _ ⟨l, hl, rfl, rfl⟩
  revert l
  decide

lemma backward_inherited : inherited.backward 5 = [1, 3, 4] := by
  have hreached : explore inherited.predecessors
      (fun n => decide (inherited.rankAt 5 < inherited.rankAt n)) inherited.liveSlots
        (inherited.late 5) [] = [4, 3, 1] := calc
    _ = explore inherited.predecessors _ [1, 2, 3, 5] [3] [4] := explore_take (by decide) rfl
    _ = explore inherited.predecessors _ [1, 2, 5] [1] [4, 3] := explore_take (by decide) rfl
    _ = explore inherited.predecessors _ [2, 5] [] [4, 3, 1] := explore_take (by decide) rfl
    _ = [4, 3, 1] := explore_nil _
  rw [backward, hreached]
  exact mergeSort_rank_eq (by decide) (by decide)

lemma forward_inherited : inherited.forward 5 4 = [5, 2] := by
  have hreached : explore inherited.successors (fun n => decide (inherited.rankAt n < 4))
      inherited.liveSlots [5] [] = [5, 2] := calc
    _ = explore inherited.successors _ [1, 2, 3, 4] [2] [5] := explore_take (by decide) rfl
    _ = explore inherited.successors _ [1, 3, 4] [] [5, 2] := explore_take (by decide) rfl
    _ = [5, 2] := explore_nil _
  rw [forward, hreached]
  exact mergeSort_rank_eq (.refl _) (by decide)

/-- The block moves up behind both, and the block after it gives way. -/
theorem repaired_inherited : inherited.Disordered 5 ∧
    inherited.Repaired 5 (inherited.restoreOrder 5) ∧
    [1, 2, 3, 4, 5].map inherited.rankAt = [1, 2, 3, 4, 0] ∧
    [1, 2, 3, 4, 5].map (inherited.restoreOrder 5).rankAt = [0, 4, 1, 2, 3] := by
  refine ⟨disordered_inherited, repaired_restoreOrder disordered_inherited, rfl, ?_⟩
  have hupper : ((inherited.late 5).map inherited.rankAt).max? = some 4 := rfl
  have hpool : pool inherited.rankAt [1, 3, 4] [5, 2] = [0, 1, 2, 3, 4] :=
    (pool_perm.trans (by decide)).eq_of_pairwise (fun _ _ _ _ => le_antisymm) pool_sorted
      (by decide)
  rw [restoreOrder_of_some hupper, backward_inherited, forward_inherited, hpool]
  rfl

end Sample

end GateFusion.CircuitGraph
