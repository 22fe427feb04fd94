import GateFusion.Binary64.Basic
import GateFusion.Proofs.Circuit.Alike
import GateFusion.Proofs.Fusion.Composed
import GateFusion.Proofs.Fusion.Matching

/-!
# Fusion and the layout of a graph

The engine asks a graph for neighbours, fusable pairs and gates, never for slots or ranks, and
compares candidates by cost and age. So in two graphs of the same circuit it finds corresponding
candidates in one order, and fuses them into graphs of the same circuit.
-/

namespace GateFusion.FusionEngine
open CircuitGraph Relator
variable {α : Type} [Scalar α] {T : BlockId → BlockId → Prop} {e : FusionEngine α}
  {g g' : CircuitGraph α} {w w' : Qubit → List Nat} {s s' : CandidateSet α} {c c' : Candidate α}
  {x x' y y' : BlockId}

section Score
variable (h : Mirrored T g w g' w')
include h

lemma score_agree (hx : T x x') (hy : T y y') :
    Agree (Option.Rel (SameKey (Candidate.Counterpart T))) (e.score g x y) (e.score g' x' y') := by
  have hfusable := h.fusable (k := e.config.maxFusedArity) hx hy
  unfold score
  cases hf : g.fusable x y e.config.maxFusedArity with
  | none =>
    rw [eq_none_of_rel hfusable hf]
    exact .ok .none
  | some p =>
    obtain ⟨earlier, later⟩ := p
    obtain ⟨⟨earlier', later'⟩, hf', hearlier, hlater⟩ := exists_of_rel hfusable hf
    rw [hf']
    obtain ⟨-, first, second, hm, -⟩ := h.sound.fusable_eq_some.mp hf
    obtain ⟨first', second', hm', hgate, hgate'⟩ := h.mergeable hm hearlier hlater
    have hseq : first.seq = first'.seq := by
      rw [(block?_eq_some.mp hm.earlier).2, (block?_eq_some.mp hm'.earlier).2, (h.seq hearlier).1]
    have hseq' : second.seq = second'.seq := by
      rw [(block?_eq_some.mp hm.later).2, (block?_eq_some.mp hm'.later).2, (h.seq hlater).1]
    simp only [hm.earlier, hm.later, hm'.earlier, hm'.later, unionArity_eq hm.earlier hm.later,
      unionArity_eq hm'.earlier hm'.later, hgate, hgate', hseq, hseq']
    split
    · exact .ok .none
    · refine (Agree.rfl _).bind fun fused fused' _ _ hfused => ?_
      obtain rfl := hfused
      split
      · exact .ok (.some ⟨rfl, hearlier, hlater, rfl⟩)
      · exact .ok .none

lemma enqueue_agree (hs : s.Matches T s') (hx : T x x') (hy : T y y') :
    Agree (CandidateSet.Matches T) (e.enqueue g x s y) (e.enqueue g' x' s' y') := by
  unfold enqueue
  refine (score_agree h hx hy).bind fun r r' _ _ hr => ?_
  cases hr with
  | none => exact .ok hs
  | @some p p' hp =>
    obtain ⟨key, c⟩ := p
    obtain ⟨key', c'⟩ := p'
    obtain ⟨rfl, hc⟩ : key = key' ∧ c.Counterpart T c' := hp
    exact .ok (hs.insert h.unique key hc)

lemma candidates_agree :
    Agree (CandidateSet.Matches T) (e.candidates g) (e.candidates g') := by
  unfold candidates
  refine Agree.foldlM (P := fun p p' : BlockId × BlockId => T p.1 p'.1 ∧ T p.2 p'.2)
    (fun s s' p p' hs hp => enqueue_agree h hs hp.1 hp.2) ?_ ⟨.nil, .nil⟩
  refine List.rel_flatMap (R := T) h.order fun x x' hx => ?_
  refine List.rel_map (R := T) (fun y y' hy => ⟨hx, hy⟩) (List.rel_filter ?_ (h.neighbors hx))
  intro y y' hy
  have hadjacency := h.adjacency hx hy
  dsimp only
  rw [decide_eq_true_iff, decide_eq_true_iff]
  generalize g.adjacency x y = o at hadjacency
  generalize g'.adjacency x' y' = o' at hadjacency
  cases hadjacency with
  | none => simp
  | some hp =>
    rw [Option.map_some, Option.map_some, Option.some_inj, Option.some_inj]
    exact rel_eq h.unique hp.1 hx

lemma isCurrent_eq (hc : c.Counterpart T c') : e.isCurrent g c = e.isCurrent g' c' := by
  have hfusable := h.fusable (k := e.config.maxFusedArity) hc.earlier hc.later
  unfold isCurrent
  rw [decide_eq_decide]
  generalize g.fusable c.earlier c.later e.config.maxFusedArity = o at hfusable
  generalize g'.fusable c'.earlier c'.later e.config.maxFusedArity = o' at hfusable
  cases hfusable with
  | none => simp
  | some hp =>
    rw [Option.some_inj, Option.some_inj, Prod.ext_iff, Prod.ext_iff]
    exact and_congr (rel_eq h.unique hp.1 hc.earlier) (rel_eq h.unique hp.2 hc.later)

lemma Composed.counterpart (hcomposed : Composed g c) (hc : c.Counterpart T c') :
    Composed g' c' := by
  constructor
  case earlier_lt =>
    obtain ⟨hseq, hlt⟩ := h.seq hc.earlier
    rwa [← hseq, ← h.nextSeq]
  case later_lt =>
    obtain ⟨hseq, hlt⟩ := h.seq hc.later
    rwa [← hseq, ← h.nextSeq]
  case compose =>
    intro first' second' hfirst' hsecond'
    obtain ⟨first, hfirst, hgate, -⟩ := h.symm.twin hc.earlier hfirst'
    obtain ⟨second, hsecond, hgate', -⟩ := h.symm.twin hc.later hsecond'
    rw [← hgate, ← hgate', ← hc.fused]
    exact hcomposed.compose first second hfirst hsecond

end Score

/-- Graphs of the same circuit and matching candidates. -/
def Coupled (r r' : CircuitGraph α × CandidateSet α) : Prop :=
  ∃ T w w', Mirrored T r.1 w r'.1 w' ∧ r.2.Matches T r'.2

/-- Merging corresponding candidates succeeds in both graphs. -/
lemma mergeCandidate_agree (h : Mirrored T g w g' w') (hs : s.Matches T s')
    (hc : c.Counterpart T c') (hcomposed : Composed g c) (hcurrent : e.isCurrent g c = true) :
    Agree Coupled (e.mergeCandidate g s c) (e.mergeCandidate g' s' c') := by
  have hcurrent' : e.isCurrent g' c' = true := (isCurrent_eq h hc).symm.trans hcurrent
  obtain ⟨first, second, id, g₁, hm, -, -, hreplace, hmerged⟩ :=
    hcomposed.replace h.sound hcurrent
  obtain ⟨first', second', id', g₁', hm', -, -, hreplace', hmerged'⟩ :=
    (hcomposed.counterpart h hc).replace h.sound' hcurrent'
  rw [← hc.fused] at hmerged'
  have hmirrored := h.merge hm hm' hmerged hmerged' hc.earlier hc.later
  have hleft := ((hs.retire h.unique hc.earlier).retire h.unique hc.later).mono
    (S := Extended T id id') fun x x' hx => Or.inl hx
  have hnew : Extended T id id' id id' := Or.inr ⟨rfl, rfl⟩
  unfold mergeCandidate
  rw [hreplace, hreplace']
  refine Agree.bind (R := CandidateSet.Matches (Extended T id id')) ?_
    fun t t' _ _ ht => .ok ⟨_, _, _, hmirrored, ht⟩
  exact Agree.foldlM (P := Extended T id id')
    (fun t t' n n' ht hn => enqueue_agree hmirrored ht hnew hn) (hmirrored.neighbors hnew) hleft

/-- Equal counts, and graphs of the same circuit. -/
def SameProgress (p p' : Progress α) : Prop :=
  (p.merges = p'.merges ∧ p.stale = p'.stale) ∧ ∃ T w w', Mirrored T p.graph w p'.graph w'

theorem loop_agree {bound : Nat} {p p' : Progress α} (h : Mirrored T p.graph w p'.graph w')
    (hs : s.Matches T s') (hcomposed : AllComposed p.graph s)
    (hcounts : p.merges = p'.merges ∧ p.stale = p'.stale) :
    Agree SameProgress (e.loop bound p s) (e.loop bound p' s') := by
  induction p, s using FusionEngine.loop.induct e bound generalizing p' s' T w w' with
  | case1 p s hb hpop =>
    rw [loop_of_empty hpop, loop_of_empty (eq_none_of_rel (hs.pop? h.unique) hpop)]
    exact .ok ⟨hcounts, T, w, w', h⟩
  | case2 p s hb c rest hpop hcurrent ih =>
    obtain ⟨⟨c', rest'⟩, hpop', hc, hrest⟩ := exists_of_rel (hs.pop? h.unique) hpop
    obtain ⟨hcomposed, hall⟩ := forall_pop? hcomposed hpop
    rw [loop_of_current hb hpop hcurrent, loop_of_current (hcounts.1 ▸ hb) hpop'
      ((isCurrent_eq h hc).symm.trans hcurrent)]
    refine (mergeCandidate_agree h hrest hc hcomposed hcurrent).bind fun r r' hr hr' hcoupled => ?_
    obtain ⟨T₁, w₁, w₁', h₁, hs₁⟩ := hcoupled
    obtain ⟨-, hall₁⟩ := mergeCandidate_composed h.sound hall hcomposed hcurrent hr
    exact ih r.1 r.2 h₁ hs₁ hall₁ ⟨congrArg Nat.succ hcounts.1, hcounts.2⟩
  | case3 p s hb c rest hpop hstale ih =>
    obtain ⟨⟨c', rest'⟩, hpop', hc, hrest⟩ := exists_of_rel (hs.pop? h.unique) hpop
    rw [Bool.not_eq_true] at hstale
    rw [loop_of_stale hb hpop hstale, loop_of_stale (hcounts.1 ▸ hb) hpop'
      ((isCurrent_eq h hc).symm.trans hstale)]
    exact ih h hrest (forall_pop? hcomposed hpop).2 ⟨hcounts.1, congrArg Nat.succ hcounts.2⟩
  | case4 p s hb =>
    rw [loop_of_bound hb, loop_of_bound (by rwa [← hcounts.1])]
    exact .ok ⟨hcounts, T, w, w', h⟩

lemma totalCost_eq (h : Mirrored T g w g' w') : e.totalCost g = e.totalCost g' := by
  have hcosts : ∀ k : CircuitGraph α,
      e.totalCost k = Scalar.sum (k.gates.map e.model.gateCost) := by
    intro k
    rw [gates, List.map_map]
    rfl
  rw [hcosts, hcosts, h.gates]

theorem run_agree (h : Mirrored T g w g' w') :
    Agree (fun r r' => r.1 = r'.1 ∧ ∃ T w w', Mirrored T r.2 w r'.2 w') (e.run g) (e.run g') := by
  unfold FusionEngine.run
  refine (candidates_agree h).bind fun s s' hs _ hmatches => ?_
  have hcomposed : AllComposed g s := candidates_composed h.sound hs
  rw [h.numBlocks]
  have hloop : Agree SameProgress (e.loop g'.numBlocks ⟨g, 0, 0⟩ s)
      (e.loop g'.numBlocks ⟨g', 0, 0⟩ s') := loop_agree h hmatches hcomposed ⟨rfl, rfl⟩
  refine hloop.bind fun p p' _ _ hp => .ok ?_
  obtain ⟨⟨hmerges, hstale⟩, T₁, w₁, w₁', h₁⟩ := hp
  refine ⟨?_, T₁, w₁, w₁', h₁⟩
  rw [h₁.numBlocks, hmerges, hstale, totalCost_eq h, totalCost_eq h₁]

/-- The engine does not see how a graph is laid out: on graphs of the same circuit it fails alike or
returns one report and graphs of the same circuit again, with the same execution order. -/
theorem run_alike (e : FusionEngine α) {n n' : Nat} {g₀ g₀' : CircuitGraph α}
    (h₀ : CircuitGraph.empty n = .ok g₀) (h₀' : CircuitGraph.empty n' = .ok g₀')
    (calls calls' : List (Call α)) (h : Alike (g₀.run calls) (g₀'.run calls')) :
    (∃ err, e.run (g₀.run calls) = .error err ∧ e.run (g₀'.run calls') = .error err) ∨
      ∃ report k k', e.run (g₀.run calls) = .ok (report, k) ∧
        e.run (g₀'.run calls') = .ok (report, k') ∧ Alike k k' ∧
          k.order.map (·.seq) = k'.order.map (·.seq) := by
  obtain ⟨w, hs⟩ := (Sound.empty h₀).run calls
  obtain ⟨w', hs'⟩ := (Sound.empty h₀').run calls'
  have hagree := run_agree (e := e) (h.mirrored hs hs')
  generalize e.run (g₀.run calls) = r at hagree
  generalize e.run (g₀'.run calls') = r' at hagree
  cases hagree with
  | error err => exact Or.inl ⟨err, rfl, rfl⟩
  | @ok r r' hr =>
    obtain ⟨report, k⟩ := r
    obtain ⟨report', k'⟩ := r'
    obtain ⟨rfl, T, v, v', hk⟩ := hr
    exact Or.inr ⟨report, k, k', rfl, rfl, hk.alike,
      map_eq_of_forall₂ hk.order fun x x' hx => (hk.seq hx).1⟩

section Sample

def xGate : Gate Binary64 := ⟨"x", [0], Quad.pauliX.single⟩

lemma wellFormed_xGate : xGate.WellFormed := ⟨by decide, by decide, rfl, rfl⟩

/-- Three of four gates are merged into one, the first two before the third is added. -/
def mergedEarly : List (Call Binary64) :=
  [.add xGate wellFormed_xGate, .add xGate wellFormed_xGate,
    .replace ⟨0, 0⟩ ⟨1, 1⟩ xGate wellFormed_xGate, .add xGate wellFormed_xGate,
    .replace ⟨1, 2⟩ ⟨0, 3⟩ xGate wellFormed_xGate, .add xGate wellFormed_xGate]

/-- The same after all three are added. -/
def mergedLate : List (Call Binary64) :=
  [.add xGate wellFormed_xGate, .add xGate wellFormed_xGate, .add xGate wellFormed_xGate,
    .replace ⟨0, 0⟩ ⟨1, 1⟩ xGate wellFormed_xGate,
    .replace ⟨1, 3⟩ ⟨2, 2⟩ xGate wellFormed_xGate, .add xGate wellFormed_xGate]

/-- The empty circuit over one qubit. -/
def oneWire : CircuitGraph Binary64 := ⟨#[], [], [], #[none], #[none], 0, 0⟩

lemma run_mergedEarly : oneWire.run mergedEarly =
    ⟨#[some ⟨xGate, 4, 0, [0, 1, 2]⟩, some ⟨xGate, 5, 5, [3]⟩], [], [⟨0, 1, 0⟩], #[some 0],
      #[some 1], 6, 4⟩ := by
  have hadj : (oneWire.run (mergedEarly.take 2)).adjacency ⟨0, 0⟩ ⟨1, 1⟩ =
    some (⟨0, 0⟩, ⟨1, 1⟩) := rfl
  have hfirst := perform_of_adjacency hadj rfl rfl rfl ⟨rfl, rfl⟩ wellFormed_xGate (by decide)
  have hmiddle : oneWire.run (mergedEarly.take 4) = ⟨#[some ⟨xGate, 3, 3, [2]⟩,
      some ⟨xGate, 2, 0, [0, 1]⟩], [], [⟨1, 0, 0⟩], #[some 1], #[some 0], 4, 3⟩ := by
    change ((oneWire.run (mergedEarly.take 2)).perform (.replace _ _ _ wellFormed_xGate)).perform
      (.add _ wellFormed_xGate) = _
    rw [hfirst]
    rfl
  have hadj' : (oneWire.run (mergedEarly.take 4)).adjacency ⟨1, 2⟩ ⟨0, 3⟩ =
      some (⟨1, 2⟩, ⟨0, 3⟩) := by
    rw [hmiddle]
    rfl
  rw [hmiddle] at hadj'
  have hsecond := perform_of_adjacency hadj' rfl rfl rfl ⟨rfl, rfl⟩ wellFormed_xGate (by decide)
  change ((oneWire.run (mergedEarly.take 4)).perform (.replace _ _ _ wellFormed_xGate)).perform
    (.add _ wellFormed_xGate) = _
  rw [hmiddle, hsecond]
  rfl

lemma run_mergedLate : oneWire.run mergedLate =
    ⟨#[none, some ⟨xGate, 5, 5, [3]⟩, some ⟨xGate, 4, 0, [0, 1, 2]⟩], [0], [⟨2, 1, 0⟩], #[some 2],
      #[some 1], 6, 4⟩ := by
  have hadj : (oneWire.run (mergedLate.take 3)).adjacency ⟨0, 0⟩ ⟨1, 1⟩ =
    some (⟨0, 0⟩, ⟨1, 1⟩) := rfl
  have hfirst := perform_of_adjacency hadj rfl rfl rfl ⟨rfl, rfl⟩ wellFormed_xGate (by decide)
  have hmiddle : oneWire.run (mergedLate.take 4) = ⟨#[none, some ⟨xGate, 3, 0, [0, 1]⟩,
      some ⟨xGate, 2, 2, [2]⟩], [0], [⟨1, 2, 0⟩], #[some 1], #[some 2], 4, 3⟩ := hfirst
  have hadj' : (oneWire.run (mergedLate.take 4)).adjacency ⟨1, 3⟩ ⟨2, 2⟩ =
      some (⟨1, 3⟩, ⟨2, 2⟩) := by
    rw [hmiddle]
    rfl
  rw [hmiddle] at hadj'
  have hsecond := perform_of_adjacency hadj' rfl rfl rfl ⟨rfl, rfl⟩ wellFormed_xGate (by decide)
  change ((oneWire.run (mergedLate.take 4)).perform (.replace _ _ _ wellFormed_xGate)).perform
    (.add _ wellFormed_xGate) = _
  rw [hmiddle, hsecond]
  rfl

lemma alike_merged : Alike (oneWire.run mergedEarly) (oneWire.run mergedLate) := by
  have hempty : ∀ (k : CircuitGraph Binary64) (q : Qubit), k.head? q = none → k.wire q = [] := by
    intro k q hq
    unfold wire
    rw [hq]
    cases k.numBlocks with
    | zero => rfl
    | succ n => rfl
  have hearly : ∀ x b, (oneWire.run mergedEarly).block? x = some b →
      b.gate = xGate ∧ b.origins = if x.seq = 4 then [0, 1, 2] else [3] := by
    rintro ⟨slot, seq⟩ b hb
    obtain ⟨hat, rfl⟩ := block?_eq_some.mp hb
    rw [run_mergedEarly] at hat
    rcases slot with _ | _ | slot
    · exact Option.some.inj hat ▸ ⟨rfl, rfl⟩
    · exact Option.some.inj hat ▸ ⟨rfl, rfl⟩
    · nomatch hat
  have hlate : ∀ x b, (oneWire.run mergedLate).block? x = some b →
      b.gate = xGate ∧ b.origins = if x.seq = 4 then [0, 1, 2] else [3] := by
    rintro ⟨slot, seq⟩ b hb
    obtain ⟨hat, rfl⟩ := block?_eq_some.mp hb
    rw [run_mergedLate] at hat
    rcases slot with _ | _ | _ | slot
    · nomatch hat
    · exact Option.some.inj hat ▸ ⟨rfl, rfl⟩
    · exact Option.some.inj hat ▸ ⟨rfl, rfl⟩
    · nomatch hat
  constructor
  case nextSeq => rw [run_mergedEarly, run_mergedLate]
  case wire =>
    intro q
    cases q with
    | zero =>
      rw [run_mergedEarly, run_mergedLate]
      rfl
    | succ q =>
      rw [hempty _ _ (by rw [run_mergedEarly]; rfl), hempty _ _ (by rw [run_mergedLate]; rfl)]
  case block =>
    intro x x' b b' hb hb' hseq
    obtain ⟨hgate, horigins⟩ := hearly x b hb
    obtain ⟨hgate', horigins'⟩ := hlate x' b' hb'
    rw [hgate, hgate', horigins, horigins', hseq]
    exact ⟨rfl, rfl⟩

/-- An engine for pairs of blocks on up to two qubits. -/
def pairEngine : FusionEngine Binary64 := ⟨⟨2, ⟨64, 0⟩⟩, .naive ⟨64, 0⟩⟩

/-- The merged gate lies in different slots. -/
theorem run_alike_merged : CircuitGraph.empty 1 = .ok oneWire ∧
    (oneWire.run mergedEarly).head? 0 = some ⟨0, 4⟩ ∧
    (oneWire.run mergedLate).head? 0 = some ⟨2, 4⟩ ∧
    Alike (oneWire.run mergedEarly) (oneWire.run mergedLate) ∧
    ((∃ err, pairEngine.run (oneWire.run mergedEarly) = .error err ∧
        pairEngine.run (oneWire.run mergedLate) = .error err) ∨
      ∃ report k k', pairEngine.run (oneWire.run mergedEarly) = .ok (report, k) ∧
        pairEngine.run (oneWire.run mergedLate) = .ok (report, k') ∧ Alike k k' ∧
          k.order.map (·.seq) = k'.order.map (·.seq)) := by
  have hempty : CircuitGraph.empty 1 = .ok oneWire := rfl
  refine ⟨hempty, ?_, ?_, alike_merged, ?_⟩
  · rw [run_mergedEarly]
    rfl
  · rw [run_mergedLate]
    rfl
  · exact run_alike pairEngine hempty hempty mergedEarly mergedLate alike_merged

end Sample

end GateFusion.FusionEngine
