import GateFusion.Proofs.Circuit.Listing
import GateFusion.Proofs.Circuit.Reachable
import GateFusion.Proofs.Fusion.Composed

/-!
# What a run saves

A candidate is judged when its pair is scored and merged many merges later. Until then its blocks
keep their gates or are gone, so the verdict stands: every merge leaves one block less, within the
limits, that costs at most what the pair did.
-/

namespace GateFusion

/-- A model that judges and counts as models do by default. -/
structure CostModel.Standard {α : Type} [Scalar α] (m : CostModel α) : Prop where
  isProfitable : ∀ before after, m.isProfitable before after = decide (after ≤ before)
  admits : ∀ nonzero, m.admits nonzero = decide (nonzero ≤ m.ceiling)
  countNonzero : ∀ matrix, m.countNonzero matrix = matrix.countNonzero m.zeroSkipThreshold
  gateCost : ∀ gate, m.gateCost gate = m.estimate gate.numQubits (m.countNonzero gate.matrix)

namespace FusionEngine
open CircuitGraph

section Vetted
variable {α : Type} [Scalar α] {e : FusionEngine α} {g g' : CircuitGraph α} {w : Qubit → List Nat}
  {s t : CandidateSet α} {c : Candidate α}

/-- Gates that a run may produce. -/
def Within (e : FusionEngine α) (gate : Gate α) : Prop :=
  gate.numQubits ≤ e.config.maxFusedArity ∧ e.model.countNonzero gate.matrix ≤ e.model.ceiling

/-- A composition within the limits that costs at most what its blocks do, as long as both live. -/
structure Vetted (e : FusionEngine α) (g : CircuitGraph α) (c : Candidate α) : Prop
    extends Composed g c where
  within : e.Within c.fused
  profit : ∀ first second, g.block? c.earlier = some first → g.block? c.later = some second →
    e.model.gateCost c.fused ≤ e.model.gateCost first.gate + e.model.gateCost second.gate

/-- The cost that `score` compares is that of the gate it queues. -/
lemma score_vetted (hs : Sound g w) (hm : e.model.Standard) {a b : BlockId}
    {p : CandidateKey α × Candidate α} (h : e.score g a b = .ok (some p)) : Vetted e g p.2 := by
  obtain ⟨first, second, hpair, hle, hfused, hadmits, hprofit⟩ := score_eq_some hs h
  have hf := hs.fuses hpair hfused
  have hlen : p.2.fused.numQubits = (unionInOrder first.gate second.gate).length :=
    ((fuses_iff hf.wellFormed (hs.nodup_qubits hpair.earlier)
      (hs.nodup_qubits hpair.later)).mpr hf).1
  rw [hm.admits, decide_eq_true_iff] at hadmits
  rw [hm.isProfitable, decide_eq_true_iff, ← hlen, ← hm.gateCost] at hprofit
  refine ⟨score_composed hs h, ⟨hlen ▸ hle, hadmits⟩, fun first' second' hfirst' hsecond' => ?_⟩
  obtain rfl := Option.some.inj (hpair.earlier.symm.trans hfirst')
  obtain rfl := Option.some.inj (hpair.later.symm.trans hsecond')
  exact hprofit

/-- Blocks that a merge leaves keep their gates, so the verdict on them stands. -/
lemma Vetted.after {first second : Block α} {fused : Gate α} {id a b : BlockId}
    (hc : Vetted e g c) (hmerged : Merged g w a b first second fused id g') : Vetted e g' c := by
  refine ⟨hc.toComposed.after hmerged, hc.within, fun third fourth hthird hfourth => ?_⟩
  obtain ⟨A, hA, hgate⟩ := hmerged.exists_old hc.earlier_lt hthird
  obtain ⟨B, hB, hgate'⟩ := hmerged.exists_old hc.later_lt hfourth
  rw [hgate, hgate']
  exact hc.profit A B hA hB

/-- A turn that merges exchanges a pair for a block within the limits that costs at most as much. -/
lemma mergeCandidate_vetted (hs : Sound g w) (hm : e.model.Standard)
    (hq : ∀ p ∈ s.queue, Vetted e g p.2) (hc : Vetted e g c) (hcurrent : e.isCurrent g c = true)
    (h : e.mergeCandidate g s c = .ok (g', t)) :
    (∃ first second id, Mergeable g w c.earlier c.later first second ∧
      Merged g w c.earlier c.later first second c.fused id g' ∧
      e.model.gateCost c.fused ≤ e.model.gateCost first.gate + e.model.gateCost second.gate) ∧
      ∀ p ∈ t.queue, Vetted e g' p.2 := by
  obtain ⟨first, second, id, g₁, hpair, -, -, hreplace, hmerged⟩ := hc.replace hs hcurrent
  obtain ⟨rfl, ht⟩ := forall_mergeCandidate (R := Vetted e g₁) hreplace
    (fun _ _ _ => score_vetted hmerged.sound hm) (fun d hd => hd.after hmerged) hq h
  exact ⟨⟨first, second, id, hpair, hmerged, hc.profit first second hpair.earlier hpair.later⟩, ht⟩

end Vetted

section Run
variable {e : FusionEngine ℝ} {g : CircuitGraph ℝ} {p p' : Progress ℝ} {s t : CandidateSet ℝ}

lemma totalCost_eq_sum (e : FusionEngine ℝ) (g : CircuitGraph ℝ) :
    e.totalCost g = (g.gates.map e.model.gateCost).sum := by
  rw [totalCost, Scalar.sum_eq, gates, List.map_map]
  rfl

/-- What turns that started from a graph have achieved. -/
structure Saved (e : FusionEngine ℝ) (g : CircuitGraph ℝ) (p : Progress ℝ) (s : CandidateSet ℝ) :
    Prop where
  sound : ∃ w, Sound p.graph w
  vetted : ∀ x ∈ s.queue, Vetted e p.graph x.2
  numBlocks : p.graph.numBlocks + p.merges = g.numBlocks
  kept : ∀ id b, p.graph.block? id = some b →
    (∃ b₀, g.block? id = some b₀ ∧ b.gate = b₀.gate) ∨ e.Within b.gate
  cost : e.totalCost p.graph ≤ e.totalCost g

/-- A turn saves, or leaves the graph as it is. -/
theorem Saved.turn (hm : e.model.Standard) (hp : Saved e g p s) (h : e.Turn (p, s) (p', t)) :
    Saved e g p' t := by
  obtain ⟨w, hs⟩ := hp.sound
  cases h with
  | drop hpop hstale =>
    exact ⟨hp.sound, (forall_pop? hp.vetted hpop).2, hp.numBlocks, hp.kept, hp.cost⟩
  | merge hpop hcurrent hmerge =>
    obtain ⟨hc, hrest⟩ := forall_pop? hp.vetted hpop
    obtain ⟨⟨first, second, id, hpair, hmerged, hprofit⟩, ht⟩ :=
      mergeCandidate_vetted hs hm hrest hc hcurrent hmerge
    have hfewer := hmerged.numBlocks hpair hs
    obtain ⟨rest, hbefore, hafter⟩ := hmerged.gates_perm hpair hs
    constructor
    case sound => exact ⟨_, hmerged.sound⟩
    case vetted => exact ht
    case numBlocks =>
      have := hp.numBlocks
      dsimp only
      omega
    case kept =>
      intro x b hb
      by_cases hx : x = id
      · obtain ⟨b', hb', hgate, -⟩ := hmerged.block?_new
        rw [hx, hb'] at hb
        obtain rfl := Option.some.inj hb
        exact Or.inr (hgate ▸ hc.within)
      · obtain ⟨-, b', hb', hgate, -⟩ := hmerged.block?_old hx hb
        rw [hgate]
        exact hp.kept x b' hb'
    case cost =>
      have hstart := hp.cost
      rw [totalCost_eq_sum, (hbefore.map _).sum_eq, List.map_cons, List.map_cons, List.sum_cons,
        List.sum_cons] at hstart
      rw [totalCost_eq_sum, (hafter.map _).sum_eq, List.map_cons, List.sum_cons]
      linarith

/-- What a run guarantees under a model that judges and counts as models do by default: it reports
the numbers of blocks, of which every merge takes one, and their costs, which do not rise; and
blocks that it makes are within its limits. -/
theorem run_saves {n : Nat} {g₀ : CircuitGraph ℝ} (h₀ : CircuitGraph.empty n = .ok g₀)
    (calls : List (Call ℝ)) {config : FusionConfig ℝ} {model : CostModel ℝ}
    (he : withCostModel config model = .ok e) (hm : model.Standard) {report : FusionReport ℝ}
    {h : CircuitGraph ℝ} (hrun : e.run (g₀.run calls) = .ok (report, h)) :
    report.blocksBefore = (g₀.run calls).numBlocks ∧ report.blocksAfter = h.numBlocks ∧
      report.blocksAfter + report.merges = report.blocksBefore ∧
      (∀ id b, h.block? id = some b →
        (∃ b₀, (g₀.run calls).block? id = some b₀ ∧ b.gate = b₀.gate) ∨
          (b.gate.numQubits ≤ config.maxFusedArity ∧
            model.countNonzero b.gate.matrix ≤ model.ceiling)) ∧
      report.costBefore = ((g₀.run calls).blocks.map fun b => model.gateCost b.2.gate).sum ∧
      report.costAfter = (h.blocks.map fun b => model.gateCost b.2.gate).sum ∧
      report.costAfter ≤ report.costBefore := by
  obtain rfl := eq_of_withCostModel he
  obtain ⟨w, hs⟩ := (Sound.empty h₀).run calls
  obtain ⟨initial, done, t, hinitial, hturns, rfl, rfl⟩ := turns_of_run hrun
  have hstart : Saved ⟨config, model⟩ (g₀.run calls) ⟨g₀.run calls, 0, 0⟩ initial := by
    constructor
    case sound => exact ⟨w, hs⟩
    case vetted => exact forall_candidates (fun _ _ _ => score_vetted hs hm) hinitial
    case numBlocks => rfl
    case kept => exact fun id b hb => Or.inl ⟨b, hb, rfl⟩
    case cost => exact le_rfl
  have hdone := hturns.preserves (P := Saved _ _) (fun hp hturn => hp.turn hm hturn) hstart
  refine ⟨rfl, rfl, hdone.numBlocks, hdone.kept, ?_, ?_, hdone.cost⟩
  · exact Scalar.sum_eq _
  · exact Scalar.sum_eq _

end Run

section Sample

lemma standard_naive (params : CostParams ℝ) : (CostModel.naive params).Standard :=
  ⟨fun _ _ => rfl, fun _ => rfl, fun _ => rfl, fun _ => rfl⟩

theorem run_saves_twoFlips :
    withCostModel ⟨2, ⟨64, 0⟩⟩ (.naive ⟨64, 0⟩) =
      .ok ⟨⟨2, ⟨64, 0⟩⟩, CostModel.naive (α := ℝ) ⟨64, 0⟩⟩ ∧
    ∃ g report h, CircuitGraph.empty 1 = .ok g ∧
      run ⟨⟨2, ⟨64, 0⟩⟩, .naive ⟨64, 0⟩⟩ (g.run twoFlips) = .ok (report, h) ∧
      report.blocksAfter + report.merges = report.blocksBefore ∧
      report.costAfter ≤ report.costBefore := by
  have he := withCostModel_pairs (.naive ⟨64, 0⟩)
  obtain ⟨w, hs⟩ := (Sound.empty (α := ℝ) (n := 1) rfl).run twoFlips
  obtain ⟨report, h, hrun, -⟩ :=
    run_spec (e := ⟨⟨2, ⟨64, 0⟩⟩, .naive ⟨64, 0⟩⟩) (lawful_naive _) (by decide) hs
  obtain ⟨-, -, hblocks, -, -, -, hcost⟩ :=
    run_saves (n := 1) rfl twoFlips he (standard_naive _) hrun
  exact ⟨he, _, report, h, rfl, hrun, hblocks, hcost⟩

end Sample

end FusionEngine
end GateFusion
