import GateFusion.Proofs.Fusion.Greedy
import GateFusion.Proofs.Circuit.Reachable
import GateFusion.Proofs.Gate.Standard
import GateFusion.Proofs.Reals

/-!
# The fusion engine

The queue of the engine holds every candidate of the graph, and besides only pairs that have ceased
to be fusable. So its cheapest entry that is still fusable is the candidate that the greedy rule
merges, and the engine stops where the rule does.
-/

namespace GateFusion.FusionEngine
open CircuitGraph
variable {α : Type} [Scalar α] [Ordered α] {e : FusionEngine α} {g g' : CircuitGraph α}
  {w : Qubit → List Nat} {s : CandidateSet α}

/-- Pruning before composing loses no candidate. -/
theorem score_eq (hs : Sound g w) (hm : e.model.Lawful) (harity : e.config.maxFusedArity ≤ 31)
    (a b : BlockId) : e.score g a b = .ok (e.judge g a b) := by
  unfold score judge
  cases hf : g.fusable a b e.config.maxFusedArity with
  | none => rfl
  | some pair =>
    obtain ⟨earlier, later⟩ := pair
    obtain ⟨-, first, second, hpair, hle⟩ := hs.fusable_eq_some.mp hf
    obtain ⟨fused, hfused, -, hlen⟩ := hs.compose_eq_ok hpair (hle.trans harity)
    have hcost : e.model.gateCost fused =
        e.model.estimate (unionInOrder first.gate second.gate).length
          (e.model.countNonzero fused.matrix) := by
      rw [hm.gateCost, hlen]
    simp only [hpair.earlier, hpair.later, unionArity_eq hpair.earlier hpair.later, hfused,
      Option.bind_eq_bind, Option.bind_some, Except.toOption, Except.mapError]
    split
    · -- an estimate without nonzero entries that is too high excludes all others
      rename_i hpruned
      rw [Bool.not_eq_true', hm.isProfitable, decide_eq_false_iff_not] at hpruned
      have hnot : e.model.isProfitable (e.model.gateCost first.gate + e.model.gateCost second.gate)
          (e.model.gateCost fused) = false := by
        rw [hm.isProfitable, decide_eq_false_iff_not]
        intro hle
        rw [hcost] at hle
        exact hpruned (Ordered.le_trans _ _ _ (hm.mono _ _ _ (Nat.zero_le _)) hle)
      rw [hnot, Bool.and_false]
      rfl
    · rw [hcost]
      dsimp only [bind, Except.bind]
      split <;> rfl

/-- Queueing a scored pair adds its candidate, if it makes one. -/
lemma enqueue_spec (hs : Sound g w) (hm : e.model.Lawful) (harity : e.config.maxFusedArity ≤ 31)
    (hi : s.Indexed) (hr : ∀ p ∈ s.queue, e.Rated g p) (a b : BlockId) : ∃ t,
      e.enqueue g a s b = .ok t ∧ t.Indexed ∧ (∀ p ∈ t.queue, e.Rated g p) ∧
        ∀ p, p ∈ t.queue ↔ p ∈ s.queue ∨ e.judge g a b = some p := by
  unfold enqueue
  rw [score_eq hs hm harity]
  cases hj : e.judge g a b with
  | none => exact ⟨s, rfl, hi, hr, by simp⟩
  | some p =>
    obtain ⟨key, c⟩ := p
    have hrated := (judge_eq_some.mp hj).2
    have hkey : ∀ q ∈ s.queue, key.cmp q.1 = .eq → q = (key, c) := fun q hq hcmp =>
      (hrated.eq_of_cmp hs (hr q hq) hcmp).symm
    obtain ⟨hindexed, hmem⟩ := hi.insert_same hkey
    refine ⟨_, rfl, hindexed, fun q hq => ?_, fun q => ?_⟩
    · rcases (hmem q).mp hq with hq | rfl
      · exact hr q hq
      · exact hrated
    · rw [hmem, Option.some.injEq, eq_comm (a := q)]

lemma foldlM_enqueue_spec (hs : Sound g w) (hm : e.model.Lawful)
    (harity : e.config.maxFusedArity ≤ 31) (hi : s.Indexed) (hr : ∀ p ∈ s.queue, e.Rated g p)
    (pairs : List (BlockId × BlockId)) : ∃ t,
      pairs.foldlM (fun s q => e.enqueue g q.1 s q.2) s = .ok t ∧ t.Indexed ∧
        (∀ p ∈ t.queue, e.Rated g p) ∧
          ∀ p, p ∈ t.queue ↔ p ∈ s.queue ∨ ∃ q ∈ pairs, e.judge g q.1 q.2 = some p := by
  induction pairs generalizing s with
  | nil => exact ⟨s, rfl, hi, hr, by simp⟩
  | cons q pairs ih =>
    obtain ⟨t, ht, hi', hr', hmem⟩ := enqueue_spec hs hm harity hi hr q.1 q.2
    obtain ⟨u, hu, hi'', hr'', hmem'⟩ := ih hi' hr'
    refine ⟨u, ?_, hi'', hr'', fun p => ?_⟩
    · rw [List.foldlM_cons, ht]
      exact hu
    · rw [hmem', hmem, or_assoc, List.exists_mem_cons_iff]

/-- The queue of the engine: besides the candidates of the graph it holds only pairs whose blocks
live and that were candidates once. -/
structure Tracks (e : FusionEngine α) (g : CircuitGraph α) (s : CandidateSet α) : Prop where
  indexed : s.Indexed
  rated : ∀ p ∈ s.queue, e.Rated g p
  complete : ∀ p ∈ e.judged g, p ∈ s.queue

/-- The engine starts with all candidates. -/
theorem candidates_spec (hs : Sound g w) (hm : e.model.Lawful)
    (harity : e.config.maxFusedArity ≤ 31) : ∃ s, e.candidates g = .ok s ∧ Tracks e g s := by
  unfold candidates
  obtain ⟨s, heq, hi, hr, hmem⟩ := foldlM_enqueue_spec hs hm harity .empty
    (fun p hp => absurd hp List.not_mem_nil) (g.order.flatMap fun id =>
      ((g.neighbors id).filter fun n => (g.adjacency id n).map (·.1) = some id).map
        fun n => (id, n))
  refine ⟨s, heq, hi, hr, fun p hp => (hmem p).mpr (Or.inr ?_)⟩
  obtain ⟨hf, hrated⟩ := (mem_judged hs).mp hp
  obtain ⟨first, -, hfirst, -⟩ := hrated
  refine ⟨(p.2.earlier, p.2.later), List.mem_flatMap.mpr ⟨p.2.earlier, ?_, ?_⟩,
    judge_eq_some.mpr ⟨hf, ((mem_judged hs).mp hp).2⟩⟩
  · exact hs.order_perm.mem_iff.mpr (mem_ids.mpr ⟨first, hfirst⟩)
  · refine List.mem_map_of_mem (List.mem_filter.mpr ⟨hs.mem_neighbors_of_fusable hf, ?_⟩)
    rw [(CircuitGraph.fusable_eq_some.mp hf).1]
    simp

section Merge
variable {key : CandidateKey α} {c : Candidate α} {first second : Block α} {id : BlockId}
  (hpair : Mergeable g w c.earlier c.later first second)
  (hmerged : Merged g w c.earlier c.later first second c.fused id g')
include hpair hmerged

omit [Ordered α] in
/-- Blocks that a merge leaves alone score as before. -/
lemma Rated.after {p : CandidateKey α × Candidate α} (hp : e.Rated g p)
    (he : ¬ p.2.Mentions c.earlier) (hl : ¬ p.2.Mentions c.later) : e.Rated g' p := by
  obtain ⟨third, fourth, hthird, hfourth, hscored⟩ := hp
  unfold Candidate.Mentions at he hl
  rw [not_or] at he hl
  obtain ⟨-, third', hthird', hgate, -⟩ := hmerged.block?_kept hpair hthird he.1 hl.1
  obtain ⟨-, fourth', hfourth', hgate', -⟩ := hmerged.block?_kept hpair hfourth he.2 hl.2
  refine ⟨third', fourth', hthird', hfourth', ?_⟩
  obtain ⟨h₁, h₂, h₃, h₄⟩ := hscored
  exact ⟨by rwa [hgate, hgate'], h₂, by rwa [hgate, hgate'], h₄⟩

omit [Ordered α] in
/-- A candidate of the merged graph is new or was one before. -/
lemma judged_before (hs : Sound g w) {p : CandidateKey α × Candidate α} (hp : p ∈ e.judged g')
    (hid : ¬ p.2.Mentions id) :
    p ∈ e.judged g ∧ ¬ p.2.Mentions c.earlier ∧ ¬ p.2.Mentions c.later := by
  obtain ⟨hf, third', fourth', hthird', hfourth', h₁, h₂, h₃, h₄⟩ :=
    (mem_judged hmerged.sound).mp hp
  unfold Candidate.Mentions at hid ⊢
  rw [not_or] at hid
  obtain ⟨⟨hne₁, hne₂⟩, third, hthird, hgate, -⟩ := hmerged.block?_old hid.1 hthird'
  obtain ⟨⟨hne₃, hne₄⟩, fourth, hfourth, hgate', -⟩ := hmerged.block?_old hid.2 hfourth'
  refine ⟨(mem_judged hs).mpr ⟨hmerged.fusable_before hpair hs hid.1 hid.2 hf,
    third, fourth, hthird, hfourth, ?_⟩, not_or.mpr ⟨hne₁, hne₃⟩, not_or.mpr ⟨hne₂, hne₄⟩⟩
  exact ⟨by rwa [← hgate, ← hgate'], h₂, by rwa [← hgate, ← hgate'], h₄⟩

/-- After a merge the queue tracks the merged graph. -/
lemma Tracks.mergeCandidate (hs : Sound g w) (hm : e.model.Lawful)
    (harity : e.config.maxFusedArity ≤ 31) {rest : CandidateSet α} (hrest : rest.Indexed)
    (ht : Tracks e g s) (hqueue : s.queue = (key, c) :: rest.queue)
    (hreplace : g.replace c.earlier c.later c.fused = .ok (id, g')) :
    ∃ t, e.mergeCandidate g rest c = .ok (g', t) ∧ Tracks e g' t := by
  obtain ⟨hi, hmem⟩ := hrest.retire c.earlier
  obtain ⟨hi', hmem'⟩ := hi.retire c.later
  have hleft : ∀ p, p ∈ ((rest.retire c.earlier).retire c.later).queue ↔
      (p ∈ rest.queue ∧ ¬ p.2.Mentions c.earlier) ∧ ¬ p.2.Mentions c.later := by
    intro p
    rw [hmem', hmem]
  have hrated : ∀ p ∈ ((rest.retire c.earlier).retire c.later).queue, e.Rated g' p := by
    intro p hp
    obtain ⟨⟨hp, he⟩, hl⟩ := (hleft p).mp hp
    exact (ht.rated p (hqueue ▸ List.mem_cons_of_mem _ hp)).after hpair hmerged he hl
  obtain ⟨t, hfold, hi'', hr, hnew⟩ := foldlM_enqueue_spec hmerged.sound hm harity hi' hrated
    ((g'.neighbors id).map fun n => (id, n))
  rw [List.foldlM_map] at hfold
  refine ⟨t, ?_, hi'', hr, fun p hp => (hnew p).mpr ?_⟩
  · unfold FusionEngine.mergeCandidate
    rw [hreplace]
    dsimp only [Except.mapError, bind, Except.bind]
    rw [hfold]
    rfl
  · by_cases hid : p.2.Mentions id
    · -- a pair with the new block has just been scored
      right
      obtain ⟨hf, hrated⟩ := (mem_judged hmerged.sound).mp hp
      rcases hid with hid | hid
      · rw [hid] at hf
        refine ⟨(id, p.2.later),
          List.mem_map_of_mem (hmerged.sound.mem_neighbors_of_fusable hf), ?_⟩
        exact judge_eq_some.mpr ⟨hid ▸ hf, hrated⟩
      · rw [hid, hmerged.sound.fusable_comm] at hf
        refine ⟨(id, p.2.earlier),
          List.mem_map_of_mem (hmerged.sound.mem_neighbors_of_fusable hf), ?_⟩
        exact judge_eq_some.mpr ⟨hid ▸ hf, hrated⟩
    · -- any other pair was in the queue before, and not taken from it
      left
      obtain ⟨hp, he, hl⟩ := judged_before hpair hmerged hs hp hid
      refine (hleft p).mpr ⟨⟨?_, he⟩, hl⟩
      rcases List.mem_cons.mp (hqueue ▸ ht.complete p hp) with rfl | hp
      · exact absurd (Or.inl rfl) he
      · exact hp

end Merge

section Step
variable {bound : Nat} {p : Progress α} {c : Candidate α} {rest : CandidateSet α}

omit [Ordered α]

lemma loop_of_empty (h : s.pop? = none) : e.loop bound p s = .ok p := by
  rw [loop]
  split
  · split
    · rfl
    · rename_i h'
      rw [h] at h'
      simp at h'
  · rfl

lemma loop_of_bound (hb : ¬ p.merges < bound) : e.loop bound p s = .ok p := by
  rw [loop, dif_neg hb]

lemma loop_of_current (hb : p.merges < bound) (h : s.pop? = some (c, rest))
    (hc : e.isCurrent p.graph c = true) : e.loop bound p s = (do
      let (graph, queue) ← e.mergeCandidate p.graph rest c
      e.loop bound ⟨graph, p.merges + 1, p.stale⟩ queue) := by
  rw [loop, dif_pos hb]
  split
  · rename_i h'
    rw [h] at h'
    simp at h'
  · rename_i h'
    obtain ⟨rfl, rfl⟩ := Prod.mk.inj (Option.some.inj (h'.symm.trans h))
    rw [if_pos hc]

lemma loop_of_stale (hb : p.merges < bound) (h : s.pop? = some (c, rest))
    (hc : e.isCurrent p.graph c = false) :
    e.loop bound p s = e.loop bound { p with stale := p.stale + 1 } rest := by
  rw [loop, dif_pos hb]
  split
  · rename_i h'
    rw [h] at h'
    simp at h'
  · rename_i h'
    obtain ⟨rfl, rfl⟩ := Prod.mk.inj (Option.some.inj (h'.symm.trans h))
    rw [if_neg (by rw [hc]; exact Bool.false_ne_true)]

end Step

omit [Ordered α] in
lemma pop?_eq_none {s : CandidateSet α} (h : s.pop? = none) : s.queue = [] := by
  unfold CandidateSet.pop? at h
  split at h
  · assumption
  · simp at h

section Pop
variable {key : CandidateKey α} {c : Candidate α} {rest : CandidateSet α} (ht : Tracks e g s)
include ht

omit [Ordered α] in
/-- The engine stops only where no candidate is left. -/
lemma Tracks.judged_eq_nil (hpop : s.pop? = none) : e.judged g = [] := by
  refine List.eq_nil_iff_forall_not_mem.mpr fun p hp => ?_
  have hmem := ht.complete p hp
  rw [pop?_eq_none hpop] at hmem
  exact List.not_mem_nil hmem

variable (hs : Sound g w) (hqueue : s.queue = (key, c) :: rest.queue)
include hs hqueue

omit [Ordered α] in
/-- The cheapest entry of the queue is a candidate if its pair is still fusable. -/
lemma Tracks.mem_judged (hc : e.isCurrent g c = true) : (key, c) ∈ e.judged g := by
  unfold isCurrent at hc
  refine (FusionEngine.mem_judged hs).mpr ⟨of_decide_eq_true hc, ht.rated _ ?_⟩
  rw [hqueue]
  exact List.mem_cons_self

omit hs in
lemma Tracks.least (hlt : ∀ p ∈ rest.queue, key.cmp p.1 = .lt) :
    ∀ p ∈ e.judged g, (key.cmp p.1).isLE = true := by
  intro p hp
  rcases List.mem_cons.mp (hqueue ▸ ht.complete p hp) with rfl | hp
  · have hself : key.cmp key = .eq := Std.ReflCmp.compare_self
    rw [hself]
    rfl
  · rw [hlt p hp]
    rfl

omit [Ordered α] in
/-- An entry whose pair is no longer fusable is no candidate, and can be dropped. -/
lemma Tracks.drop (hrest : rest.Indexed) (hc : e.isCurrent g c = false) : Tracks e g rest := by
  refine ⟨hrest, fun p hp => ht.rated p (hqueue ▸ List.mem_cons_of_mem _ hp), fun p hp => ?_⟩
  rcases List.mem_cons.mp (hqueue ▸ ht.complete p hp) with rfl | hp'
  · have hf := ((FusionEngine.mem_judged hs).mp hp).1
    unfold isCurrent at hc
    rw [hf] at hc
    simp at hc
  · exact hp'

end Pop

/-- From a queue that tracks the graph the engine leaves what the greedy rule leaves, under any
bound on the merges that is not below the number of blocks. -/
theorem loop_spec (hm : e.model.Lawful) (harity : e.config.maxFusedArity ≤ 31) (hs : Sound g w)
    (ht : Tracks e g s) : ∃ n h stale, Greedy e g n h ∧ ∀ bound merges before,
      merges + g.numBlocks ≤ bound → e.loop bound ⟨g, merges, before⟩ s =
        .ok ⟨h, merges + n, before + stale⟩ := by
  -- merges lower the number of blocks, stale candidates shorten the queue
  induction hblocks : g.numBlocks using Nat.strong_induction_on generalizing g w s with
  | _ blocks ih =>
    induction hlen : s.queue.length using Nat.strong_induction_on generalizing s with
    | _ len ihq =>
      cases hpop : s.pop? with
      | none =>
        exact ⟨0, g, 0, .done (ht.judged_eq_nil hpop), fun bound merges before _ =>
          loop_of_empty hpop⟩
      | some r =>
        obtain ⟨c, rest⟩ := r
        obtain ⟨hrest, key, hqueue, hlt⟩ := ht.indexed.pop? hpop
        have hpos : 0 < g.numBlocks := by
          obtain ⟨first, -, hfirst, -⟩ := ht.rated (key, c) (by simp [hqueue])
          exact List.length_pos_of_mem (mem_liveSlots.mpr ⟨first, (block?_eq_some.mp hfirst).1⟩)
        cases hc : e.isCurrent g c with
        | true =>
          have hmem := ht.mem_judged hs hqueue hc
          obtain ⟨first, second, id, g', hpair, hreplace, hmerged⟩ :=
            merge_of_mem_judged hs harity hmem
          obtain ⟨t, hmerge, ht'⟩ :=
            ht.mergeCandidate hpair hmerged hs hm harity hrest hqueue hreplace
          have hfewer := hmerged.numBlocks hpair hs
          obtain ⟨n, h, stale, hgreedy, hloop⟩ := ih g'.numBlocks (by omega) hmerged.sound ht' rfl
          refine ⟨n + 1, h, stale, .merge hmem (ht.least hqueue hlt) hreplace hgreedy,
            fun bound merges before hbound => ?_⟩
          have hb : merges < bound := by omega
          rw [loop_of_current (p := ⟨g, merges, before⟩) hb hpop hc, hmerge]
          dsimp only [bind, Except.bind]
          rw [hloop bound (merges + 1) before (by omega), Nat.add_right_comm, Nat.add_assoc]
        | false =>
          have hshorter : rest.queue.length < len := by
            rw [← hlen, hqueue]
            exact Nat.lt_succ_self _
          obtain ⟨n, h, stale, hgreedy, hloop⟩ :=
            ihq rest.queue.length hshorter (ht.drop hs hqueue hrest hc) rfl
          refine ⟨n, h, stale + 1, hgreedy, fun bound merges before hbound => ?_⟩
          have hb : merges < bound := by omega
          rw [loop_of_stale (p := ⟨g, merges, before⟩) hb hpop hc,
            hloop bound merges (before + 1) hbound, Nat.add_right_comm, Nat.add_assoc]

/-- On a sound graph the engine succeeds and follows the greedy rule, and a larger bound on the
merges would change nothing. -/
theorem run_spec (hm : e.model.Lawful) (harity : e.config.maxFusedArity ≤ 31) (hs : Sound g w) :
    ∃ report h, e.run g = .ok (report, h) ∧ Greedy e g report.merges h ∧
      ∃ initial, e.candidates g = .ok initial ∧ ∀ bound, g.numBlocks ≤ bound →
        e.loop bound ⟨g, 0, 0⟩ initial = e.loop g.numBlocks ⟨g, 0, 0⟩ initial := by
  obtain ⟨s, hcandidates, ht⟩ := candidates_spec hs hm harity
  obtain ⟨n, h, stale, hgreedy, hloop⟩ := loop_spec hm harity hs ht
  have hdone := hloop g.numBlocks 0 0 (by omega)
  refine ⟨⟨g.numBlocks, h.numBlocks, n, stale, e.totalCost g, e.totalCost h⟩, h, ?_, hgreedy, s,
    hcandidates, fun bound hbound => ?_⟩
  · unfold run
    rw [hcandidates]
    dsimp only [bind, Except.bind]
    rw [hdone, Nat.zero_add, Nat.zero_add]
    rfl
  · rw [hdone, hloop bound 0 0 (by omega)]

omit [Ordered α] in
lemma eq_of_withCostModel {config : FusionConfig α} {model : CostModel α}
    (h : withCostModel config model = .ok e) : e = ⟨config, model⟩ := by
  unfold withCostModel at h
  obtain ⟨-, -, h⟩ := bind_eq_ok.mp h
  exact (Except.ok.inj h).symm

section Sample

/-- Over the real numbers the naive model keeps its promises. -/
lemma lawful_naive (params : CostParams ℝ) : (CostModel.naive params).Lawful := by
  refine ⟨fun arity a b hab => ?_, fun _ _ => rfl, fun _ => rfl⟩
  have hmin : min a params.operationCountCeiling ≤ min b params.operationCountCeiling :=
    min_le_min_right _ hab
  exact add_le_add_right (Nat.cast_le.mpr hmin) _

lemma wellFormed_flip : (⟨"x", [0], Quad.pauliX.single⟩ : Gate ℝ).WellFormed :=
  have hflip : Gate.standard (α := ℝ) .x [0] = .ok ⟨"x", [0], Quad.pauliX.single⟩ := rfl
  (Gate.regular_of_standard hflip).toWellFormed

lemma withCostModel_pairs (model : CostModel ℝ) :
    withCostModel ⟨2, ⟨64, 0⟩⟩ model = .ok ⟨⟨2, ⟨64, 0⟩⟩, model⟩ := by
  have hvalid : FusionConfig.validate (α := ℝ) ⟨2, ⟨64, 0⟩⟩ = .ok () := by
    simp [FusionConfig.validate, Scalar.isFinite]
  unfold withCostModel
  rw [hvalid]
  rfl

/-- Two gates that undo each other. -/
noncomputable def twoFlips : List (Call ℝ) := [.add _ wellFormed_flip, .add _ wellFormed_flip]

end Sample

end GateFusion.FusionEngine
