import GateFusion.Proofs.Fusion.Turns

/-!
# Queued compositions

Whatever the cost model says, the engine only ever queues compositions of two gates, and merges a
pair into its composition while the pair is fusable. So what such merges preserve, a run preserves,
and a fused graph is one that calls lead to.
-/

namespace GateFusion.FusionEngine
open CircuitGraph
variable {α : Type} [Scalar α] {e : FusionEngine α} {g g' : CircuitGraph α} {w : Qubit → List Nat}
  {s t : CandidateSet α} {c : Candidate α}

/-- A candidate holds the composition of its blocks as long as both live. Their names are old enough
not to be given to a later block. -/
structure Composed (g : CircuitGraph α) (c : Candidate α) : Prop where
  earlier_lt : c.earlier.seq < g.nextSeq
  later_lt : c.later.seq < g.nextSeq
  compose : ∀ first second, g.block? c.earlier = some first → g.block? c.later = some second →
    Gate.compose first.gate second.gate = .ok c.fused

/-- All queued candidates hold compositions. -/
def AllComposed (g : CircuitGraph α) (s : CandidateSet α) : Prop :=
  ∀ p ∈ s.queue, Composed g p.2

lemma sublist_dropKey (id : BlockId) (s : CandidateSet α) (key : CandidateKey α) :
    (CandidateSet.dropKey id s key).queue.Sublist s.queue := by
  unfold CandidateSet.dropKey
  split
  · exact List.Sublist.refl _
  · exact List.filter_sublist

lemma sublist_retire (s : CandidateSet α) (id : BlockId) :
    (s.retire id).queue.Sublist s.queue := by
  have hfold : ∀ (keys : List (CandidateKey α)) (t : CandidateSet α),
      (keys.foldl (CandidateSet.dropKey id) t).queue.Sublist t.queue := by
    intro keys
    induction keys with
    | nil => exact fun t => List.Sublist.refl _
    | cons key keys ih => exact fun t => (ih _).trans (sublist_dropKey id t key)
  exact hfold (s.keysOf id) { s with byBlock := s.byBlock.filter fun e => e.1 ≠ id }

lemma queue_of_pop? (h : s.pop? = some (c, t)) : ∃ key, s.queue = (key, c) :: t.queue := by
  unfold CandidateSet.pop? at h
  split at h
  · simp at h
  · rename_i key d rest hq
    obtain ⟨rfl, rfl⟩ := Prod.mk.inj (Option.some.inj h)
    exact ⟨key, hq⟩

section Queue
variable {P R : Candidate α → Prop}

/-- A property of queued candidates stays one if all that scoring a pair gives has it. -/
lemma forall_enqueue {a b : BlockId} (hscore : ∀ p, e.score g a b = .ok (some p) → P p.2)
    (hq : ∀ p ∈ s.queue, P p.2) (h : e.enqueue g a s b = .ok t) : ∀ p ∈ t.queue, P p.2 := by
  unfold enqueue at h
  obtain ⟨result, hresult, h⟩ := bind_eq_ok.mp h
  cases result with
  | none =>
    obtain rfl := Except.ok.inj h
    exact hq
  | some p =>
    obtain rfl := Except.ok.inj h
    intro q hmem
    rcases OrderedMap.mem_upsert hmem with hmem | rfl | ⟨d, -, -, hd⟩
    · exact hq q hmem
    · exact hscore _ hresult
    · rw [hd]
      exact hscore _ hresult

lemma forall_foldlM_enqueue (hscore : ∀ a b p, e.score g a b = .ok (some p) → P p.2)
    (pairs : List (BlockId × BlockId)) (hq : ∀ p ∈ s.queue, P p.2)
    (h : pairs.foldlM (fun s p => e.enqueue g p.1 s p.2) s = .ok t) : ∀ p ∈ t.queue, P p.2 := by
  induction pairs generalizing s with
  | nil =>
    obtain rfl := Except.ok.inj h
    exact hq
  | cons p pairs ih =>
    rw [List.foldlM_cons] at h
    obtain ⟨u, hstep, h⟩ := bind_eq_ok.mp h
    exact ih (forall_enqueue (hscore p.1 p.2) hq hstep) h

lemma forall_candidates (hscore : ∀ a b p, e.score g a b = .ok (some p) → P p.2)
    (h : e.candidates g = .ok s) : ∀ p ∈ s.queue, P p.2 :=
  forall_foldlM_enqueue hscore _ (fun _ hp => absurd hp List.not_mem_nil) h

lemma forall_pop? (hq : ∀ p ∈ s.queue, P p.2) (h : s.pop? = some (c, t)) :
    P c ∧ ∀ p ∈ t.queue, P p.2 := by
  obtain ⟨key, hqueue⟩ := queue_of_pop? h
  rw [hqueue] at hq
  exact ⟨hq (key, c) List.mem_cons_self, fun p hp => hq p (List.mem_cons_of_mem _ hp)⟩

/-- A merge replaces the pair, drops candidates, and queues what scoring the new block gives. -/
lemma forall_mergeCandidate {id : BlockId} {g₁ : CircuitGraph α}
    (hreplace : g.replace c.earlier c.later c.fused = .ok (id, g₁))
    (hscore : ∀ a b p, e.score g₁ a b = .ok (some p) → R p.2) (hkeep : ∀ d, P d → R d)
    (hq : ∀ p ∈ s.queue, P p.2) (h : e.mergeCandidate g s c = .ok (g', t)) :
    g' = g₁ ∧ ∀ p ∈ t.queue, R p.2 := by
  unfold mergeCandidate at h
  rw [hreplace] at h
  obtain ⟨⟨id', g''⟩, hr, h⟩ := bind_eq_ok.mp h
  obtain ⟨rfl, rfl⟩ := Prod.mk.inj (Except.ok.inj hr)
  obtain ⟨u, hfold, h⟩ := bind_eq_ok.mp h
  obtain ⟨rfl, rfl⟩ := Prod.mk.inj (Except.ok.inj h)
  refine ⟨rfl, forall_foldlM_enqueue hscore ((g₁.neighbors id).map fun n => (id, n))
    (fun p hp => hkeep _ (hq p ?_)) (by rw [List.foldlM_map]; exact hfold)⟩
  exact (sublist_retire _ _).subset ((sublist_retire _ _).subset hp)

end Queue

/-- What `score` returns: a fusable pair whose composition is admitted and profitable. -/
lemma score_eq_some (hs : Sound g w) {a b : BlockId} {p : CandidateKey α × Candidate α}
    (h : e.score g a b = .ok (some p)) : ∃ first second,
      Mergeable g w p.2.earlier p.2.later first second ∧
      (unionInOrder first.gate second.gate).length ≤ e.config.maxFusedArity ∧
      Gate.compose first.gate second.gate = .ok p.2.fused ∧
      e.model.admits (e.model.countNonzero p.2.fused.matrix) = true ∧
      e.model.isProfitable (e.model.gateCost first.gate + e.model.gateCost second.gate)
        (e.model.estimate (unionInOrder first.gate second.gate).length
          (e.model.countNonzero p.2.fused.matrix)) = true := by
  unfold score at h
  cases hf : g.fusable a b e.config.maxFusedArity with
  | none =>
    rw [hf] at h
    simp [pure, Except.pure] at h
  | some pair =>
    obtain ⟨earlier, later⟩ := pair
    obtain ⟨-, first, second, hm, hle⟩ := hs.fusable_eq_some.mp hf
    simp only [hf, hm.earlier, hm.later, unionArity_eq hm.earlier hm.later] at h
    split at h
    · simp [pure, Except.pure] at h
    · obtain ⟨fused, hfused, h⟩ := bind_eq_ok.mp h
      split at h
      · rename_i hpays
        rw [Bool.and_eq_true] at hpays
        obtain rfl := Option.some.inj (Except.ok.inj h)
        exact ⟨first, second, hm, hle, mapError_eq_ok.mp hfused, hpays.1, hpays.2⟩
      · simp [pure, Except.pure] at h

/-- What `score` returns holds the composition of two live blocks. -/
lemma score_composed (hs : Sound g w) {a b : BlockId} {p : CandidateKey α × Candidate α}
    (h : e.score g a b = .ok (some p)) : Composed g p.2 := by
  obtain ⟨first, second, hm, -, hfused, -⟩ := score_eq_some hs h
  have hyoung : ∀ {x : BlockId} {B : Block α}, g.block? x = some B → x.seq < g.nextSeq := by
    intro x B hB
    obtain ⟨hat, hseq⟩ := block?_eq_some.mp hB
    exact hseq ▸ (hs.stored.placed _ _ hat).seq_lt
  refine ⟨hyoung hm.earlier, hyoung hm.later, fun first' second' hfirst' hsecond' => ?_⟩
  obtain rfl := Option.some.inj (hm.earlier.symm.trans hfirst')
  obtain rfl := Option.some.inj (hm.later.symm.trans hsecond')
  exact hfused

lemma candidates_composed (hs : Sound g w) (h : e.candidates g = .ok s) : AllComposed g s :=
  forall_candidates (fun _ _ _ => score_composed hs) h

lemma Composed.after {first second : Block α} {fused : Gate α} {id a b : BlockId}
    (hc : Composed g c) (hmerged : Merged g w a b first second fused id g') : Composed g' c := by
  refine ⟨?_, ?_, fun third fourth hthird hfourth => ?_⟩
  · rw [hmerged.nextSeq]
    exact hc.earlier_lt.trans (Nat.lt_succ_self _)
  · rw [hmerged.nextSeq]
    exact hc.later_lt.trans (Nat.lt_succ_self _)
  · obtain ⟨A, hA, hgate⟩ := hmerged.exists_old hc.earlier_lt hthird
    obtain ⟨B, hB, hgate'⟩ := hmerged.exists_old hc.later_lt hfourth
    rw [hgate, hgate']
    exact hc.compose A B hA hB

/-- A current candidate can be merged. -/
lemma Composed.replace (hc : Composed g c) (hs : Sound g w) (hcurrent : e.isCurrent g c = true) :
    ∃ first second id g₁, Mergeable g w c.earlier c.later first second ∧
      Gate.compose first.gate second.gate = .ok c.fused ∧
      g.merge c.earlier c.later first second c.fused = (id, g₁) ∧
      g.replace c.earlier c.later c.fused = .ok (id, g₁) ∧
      Merged g w c.earlier c.later first second c.fused id g₁ := by
  unfold isCurrent at hcurrent
  obtain ⟨-, first, second, hm, -⟩ := hs.fusable_eq_some.mp (of_decide_eq_true hcurrent)
  have hfused := hc.compose first second hm.earlier hm.later
  have hf := hs.fuses hm hfused
  have hreplace := hs.replace_eq_merge hm hf
  exact ⟨first, second, _, _, hm, hfused, rfl, hreplace, hs.merge hm hf rfl⟩

lemma mergeCandidate_composed (hs : Sound g w) (hq : AllComposed g s) (hc : Composed g c)
    (hcurrent : e.isCurrent g c = true) (h : e.mergeCandidate g s c = .ok (g', t)) :
    (∃ first second id, Mergeable g w c.earlier c.later first second ∧
      Gate.compose first.gate second.gate = .ok c.fused ∧
      g.merge c.earlier c.later first second c.fused = (id, g')) ∧ AllComposed g' t := by
  obtain ⟨first, second, id, g₁, hm, hfused, hmerge, hreplace, hmerged⟩ := hc.replace hs hcurrent
  obtain ⟨rfl, ht⟩ := forall_mergeCandidate (R := Composed g₁) hreplace
    (fun _ _ _ => score_composed hmerged.sound) (fun d hd => hd.after hmerged) hq h
  exact ⟨⟨first, second, id, hm, hfused, hmerge⟩, ht⟩

/-- A property of graphs that merging a pair of blocks into its composition preserves. -/
structure Kept (P : CircuitGraph α → Prop) : Prop where
  sound : ∀ {g}, P g → ∃ w, Sound g w
  merge : ∀ {g g' : CircuitGraph α} {w : Qubit → List Nat} {a b id : BlockId}
    {first second : Block α} {fused : Gate α}, P g → Sound g w → Mergeable g w a b first second →
      Gate.compose first.gate second.gate = .ok fused → g.merge a b first second fused = (id, g') →
      P g'

section Kept
variable {P : CircuitGraph α → Prop}

/-- A turn keeps it too, and all queued candidates compositions. -/
lemma Kept.turn (hP : Kept P) {p p' : Progress α} (h : e.Turn (p, s) (p', t)) (hp : P p.graph)
    (hq : AllComposed p.graph s) : P p'.graph ∧ AllComposed p'.graph t := by
  cases h with
  | merge hpop hcurrent hmerge =>
    obtain ⟨hc, hrest⟩ := forall_pop? hq hpop
    obtain ⟨w, hs⟩ := hP.sound hp
    obtain ⟨⟨first, second, id, hm, hfused, hg'⟩, ht⟩ :=
      mergeCandidate_composed hs hrest hc hcurrent hmerge
    exact ⟨hP.merge hp hs hm hfused hg', ht⟩
  | drop hpop hstale => exact ⟨hp, (forall_pop? hq hpop).2⟩

lemma Kept.turns (hP : Kept P) {p p' : Progress α} (h : e.Turns (p, s) (p', t)) (hp : P p.graph)
    (hq : AllComposed p.graph s) : P p'.graph ∧ AllComposed p'.graph t :=
  h.preserves (P := fun p s => P p.graph ∧ AllComposed p.graph s)
    (fun hp hturn => hP.turn hturn hp.1 hp.2) ⟨hp, hq⟩

/-- What merges into compositions preserve, a run preserves. -/
theorem Kept.run (hP : Kept P) {report : FusionReport α} (hg : P g)
    (h : e.run g = .ok (report, g')) : P g' := by
  obtain ⟨w, hs⟩ := hP.sound hg
  obtain ⟨initial, done, t, hinitial, hturns, rfl, -⟩ := turns_of_run h
  exact (hP.turns hturns hg (candidates_composed hs hinitial)).1

end Kept

/-- A fused graph is one that calls lead to. -/
theorem exists_calls_of_run {n : Nat} {g₀ : CircuitGraph α} (h₀ : CircuitGraph.empty n = .ok g₀)
    (calls : List (Call α)) {report : FusionReport α}
    (h : e.run (g₀.run calls) = .ok (report, g')) : ∃ calls', g' = g₀.run calls' := by
  have hkept : Kept fun g => ∃ calls, g = g₀.run calls := by
    constructor
    · rintro g ⟨calls, rfl⟩
      exact (Sound.empty h₀).run calls
    · rintro g g' w a b id first second fused ⟨calls, rfl⟩ hs hm hfused hmerge
      have hf := hs.fuses hm hfused
      have hreplace : (g₀.run calls).replace a b fused = .ok (id, g') := by
        rw [hs.replace_eq_merge hm hf, hmerge]
      refine ⟨calls ++ [.replace a b fused hf.wellFormed], ?_⟩
      have hrun : g₀.run (calls ++ [.replace a b fused hf.wellFormed]) =
          (g₀.run calls).perform (.replace a b fused hf.wellFormed) := List.foldl_append
      rw [hrun, perform, Change.graph_of_result hreplace]
  exact hkept.run ⟨calls, rfl⟩ h

end GateFusion.FusionEngine
