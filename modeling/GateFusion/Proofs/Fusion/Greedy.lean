import GateFusion.Proofs.Gate.Compose
import GateFusion.Fusion.Engine
import GateFusion.Proofs.Circuit.Fusable
import GateFusion.Proofs.Circuit.Order
import GateFusion.Proofs.Fusion.Candidates

/-!
# The greedy rule

In every round all pairs of neighbours are composed and judged anew, and the cheapest candidate is
merged, until none is left. This is the rule that fusion implements; it determines the result.
-/

namespace GateFusion

/-- What a cost model promises: estimates do not decrease with the number of nonzero entries, and
profit and the cost of a gate are what they are by default. -/
structure CostModel.Lawful {α : Type} [Scalar α] (m : CostModel α) : Prop where
  mono : ∀ arity a b, a ≤ b → m.estimate arity a ≤ m.estimate arity b
  isProfitable : ∀ before after, m.isProfitable before after = decide (after ≤ before)
  gateCost : ∀ gate, m.gateCost gate = m.estimate gate.numQubits (m.countNonzero gate.matrix)

section Composition
open CircuitGraph
variable {α : Type} [Scalar α] {g : CircuitGraph α} {w : Qubit → List Nat}

lemma Gate.length_composedQubits {first second : Gate α} (hfirst : first.qubits.Nodup)
    (hsecond : second.qubits.Nodup) :
    (Gate.composedQubits first second).length = (unionInOrder first second).length := by
  obtain ⟨hn, hmem⟩ := Gate.composedQubits_spec hfirst second
  refine List.Perm.length_eq ((List.perm_ext_iff_of_nodup hn
    (nodup_unionInOrder hfirst hsecond)).mpr fun q => ?_)
  rw [hmem, mem_unionInOrder]

/-- The gates of a pair on at most 31 qubits compose to a gate on the qubits of both. -/
lemma CircuitGraph.Sound.compose_eq_ok (hs : Sound g w) {a b : BlockId} {first second : Block α}
    (hm : Mergeable g w a b first second)
    (hle : (unionInOrder first.gate second.gate).length ≤ 31) : ∃ fused,
      Gate.compose first.gate second.gate = .ok fused ∧ Fuses first second fused ∧
        fused.numQubits = (unionInOrder first.gate second.gate).length := by
  have hfirst := (hs.stored.placed _ _ (block?_eq_some.mp hm.earlier).1).wellFormed
  have hsecond := (hs.stored.placed _ _ (block?_eq_some.mp hm.later).1).wellFormed
  have hlen := Gate.length_composedQubits hfirst.nodup hsecond.nodup
  obtain ⟨fused, hfused, hwf, hqubits⟩ := Gate.compose_eq_ok hfirst hsecond (hlen ▸ hle)
  refine ⟨fused, hfused, ⟨hwf, fun q => ?_⟩, ?_⟩
  · rw [hqubits]
    exact (Gate.composedQubits_spec hfirst.nodup second.gate).2 q
  · rw [Gate.numQubits, hqubits, hlen]

/-- The composition of a pair acts on the qubits of both. -/
lemma CircuitGraph.Sound.fuses (hs : Sound g w) {a b : BlockId} {first second : Block α}
    (hm : Mergeable g w a b first second) {fused : Gate α}
    (h : Gate.compose first.gate second.gate = .ok fused) : Fuses first second fused := by
  have hfirst := (hs.stored.placed _ _ (block?_eq_some.mp hm.earlier).1).wellFormed
  have hsecond := (hs.stored.placed _ _ (block?_eq_some.mp hm.later).1).wellFormed
  obtain ⟨hwf, hmem⟩ := Gate.wellFormed_of_compose hfirst hsecond h
  exact ⟨hwf, hmem⟩

end Composition

namespace FusionEngine
open CircuitGraph
variable {α : Type} [Scalar α]

/-- The candidate that two blocks make if they are fusable and their composition is admitted and
profitable. -/
def judge (e : FusionEngine α) (g : CircuitGraph α) (a b : BlockId) :
    Option (CandidateKey α × Candidate α) := do
  let (earlier, later) ← g.fusable a b e.config.maxFusedArity
  let first ← g.block? earlier
  let second ← g.block? later
  let fused ← (Gate.compose first.gate second.gate).toOption
  let before := e.model.gateCost first.gate + e.model.gateCost second.gate
  let after := e.model.gateCost fused
  if e.model.admits (e.model.countNonzero fused.matrix) && e.model.isProfitable before after then
    some (⟨after, first.seq, second.seq⟩, ⟨earlier, later, fused⟩)
  else none

/-- The candidates of all pairs of neighbours. -/
def judged (e : FusionEngine α) (g : CircuitGraph α) : List (CandidateKey α × Candidate α) :=
  g.ids.flatMap fun a => (g.neighbors a).filterMap (e.judge g a)

/-- The reference loop: it merges the candidate with the least key as long as there is one. The
number counts the merges. -/
inductive Greedy (e : FusionEngine α) : CircuitGraph α → Nat → CircuitGraph α → Prop where
  | done {g : CircuitGraph α} (h : e.judged g = []) : Greedy e g 0 g
  | merge {g g' h : CircuitGraph α} {n : Nat} {id : BlockId} {key : CandidateKey α}
      {c : Candidate α} (hmem : (key, c) ∈ e.judged g)
      (hleast : ∀ p ∈ e.judged g, (key.cmp p.1).isLE = true)
      (hmerge : g.replace c.earlier c.later c.fused = .ok (id, g')) (hrest : Greedy e g' n h) :
      Greedy e g (n + 1) h

/-- Two blocks make a candidate, whether they are fusable or not. -/
structure Scored (e : FusionEngine α) (first second : Block α) (key : CandidateKey α)
    (c : Candidate α) : Prop where
  composed : Gate.compose first.gate second.gate = .ok c.fused
  admitted : e.model.admits (e.model.countNonzero c.fused.matrix) = true
  profitable : e.model.isProfitable (e.model.gateCost first.gate + e.model.gateCost second.gate)
    (e.model.gateCost c.fused) = true
  key : key = ⟨e.model.gateCost c.fused, c.earlier.seq, c.later.seq⟩

/-- A candidate whose blocks live, with its key. -/
def Rated (e : FusionEngine α) (g : CircuitGraph α) (p : CandidateKey α × Candidate α) : Prop :=
  ∃ first second, g.block? p.2.earlier = some first ∧ g.block? p.2.later = some second ∧
    e.Scored first second p.1 p.2

variable {e : FusionEngine α} {g g' : CircuitGraph α} {w : Qubit → List Nat} {a b : BlockId}
  {p : CandidateKey α × Candidate α}

lemma judge_eq_some : e.judge g a b = some p ↔
    g.fusable a b e.config.maxFusedArity = some (p.2.earlier, p.2.later) ∧ e.Rated g p := by
  unfold judge Rated
  simp only [Option.bind_eq_bind, Option.bind_eq_some_iff]
  constructor
  · rintro ⟨⟨earlier, later⟩, hf, first, hfirst, second, hsecond, fused, hfused, h⟩
    dsimp only at h
    split at h
    · rename_i hok
      rw [Bool.and_eq_true] at hok
      obtain rfl := Option.some.inj h
      have hcomposed : Gate.compose first.gate second.gate = .ok fused := by
        cases hc : Gate.compose first.gate second.gate with
        | error err => simp [hc, Except.toOption] at hfused
        | ok gate => simpa [hc, Except.toOption] using hfused
      refine ⟨hf, first, second, hfirst, hsecond, hcomposed, hok.1, hok.2, ?_⟩
      rw [(block?_eq_some.mp hfirst).2, (block?_eq_some.mp hsecond).2]
    · simp at h
  · rintro ⟨hf, first, second, hfirst, hsecond, hs⟩
    refine ⟨_, hf, first, hfirst, second, hsecond, p.2.fused, by rw [hs.composed]; rfl, ?_⟩
    rw [if_pos (by rw [hs.admitted, hs.profitable]; rfl), (block?_eq_some.mp hfirst).2,
      (block?_eq_some.mp hsecond).2]
    exact congrArg some (Prod.ext hs.key.symm rfl)

/-- The candidates are the fusable pairs that score. -/
lemma mem_judged (hs : Sound g w) : p ∈ e.judged g ↔
    g.fusable p.2.earlier p.2.later e.config.maxFusedArity = some (p.2.earlier, p.2.later) ∧
      e.Rated g p := by
  unfold judged
  simp only [List.mem_flatMap, List.mem_filterMap, judge_eq_some]
  constructor
  · rintro ⟨a, -, b, -, hf, hr⟩
    obtain ⟨-, hm⟩ := hs.fusable_eq_some.mp hf
    exact ⟨hs.fusable_eq_some.mpr ⟨Or.inl ⟨rfl, rfl⟩, hm⟩, hr⟩
  · rintro ⟨hf, hr⟩
    obtain ⟨first, second, hfirst, hrest⟩ := hr
    exact ⟨p.2.earlier, mem_ids.mpr ⟨first, hfirst⟩, p.2.later, hs.mem_neighbors_of_fusable hf, hf,
      first, second, hfirst, hrest⟩

lemma Rated.eq_of_cmp (hs : Sound g w) {p q : CandidateKey α × Candidate α} (hp : e.Rated g p)
    (hq : e.Rated g q) (h : p.1.cmp q.1 = .eq) : p = q := by
  obtain ⟨key, c⟩ := p
  obtain ⟨key', c'⟩ := q
  obtain ⟨first, second, hfirst, hsecond, hc⟩ := hp
  obtain ⟨first', second', hfirst', hsecond', hc'⟩ := hq
  obtain ⟨hearlier, hlater⟩ := CandidateKey.cmp_eq h
  rw [hc.key, hc'.key] at hearlier hlater
  have he : c.earlier = c'.earlier := hs.eq_of_seq hfirst hfirst' hearlier
  have hl : c.later = c'.later := hs.eq_of_seq hsecond hsecond' hlater
  dsimp only at hfirst hsecond hfirst' hsecond' hc hc'
  rw [he, hfirst'] at hfirst
  rw [hl, hsecond'] at hsecond
  obtain rfl := Option.some.inj hfirst
  obtain rfl := Option.some.inj hsecond
  have hfused : c.fused = c'.fused := Except.ok.inj (hc.composed.symm.trans hc'.composed)
  obtain ⟨earlier, later, fused⟩ := c
  obtain ⟨earlier', later', fused'⟩ := c'
  dsimp only at he hl hfused
  subst he hl hfused
  rw [hc.key, hc'.key]

/-- Where compositions stay within 31 qubits, the reference loop can merge every candidate. -/
lemma merge_of_mem_judged (hs : Sound g w) (harity : e.config.maxFusedArity ≤ 31)
    (h : p ∈ e.judged g) : ∃ first second id g',
      Mergeable g w p.2.earlier p.2.later first second ∧
        g.replace p.2.earlier p.2.later p.2.fused = .ok (id, g') ∧
        Merged g w p.2.earlier p.2.later first second p.2.fused id g' := by
  obtain ⟨hf, first, second, hfirst, hsecond, hscored⟩ := (mem_judged hs).mp h
  obtain ⟨-, first', second', hm, hle⟩ := hs.fusable_eq_some.mp hf
  obtain rfl := Option.some.inj (hfirst.symm.trans hm.earlier)
  obtain rfl := Option.some.inj (hsecond.symm.trans hm.later)
  obtain ⟨fused, hfused, hfuses, -⟩ := hs.compose_eq_ok hm (hle.trans harity)
  obtain rfl := Except.ok.inj (hfused.symm.trans hscored.composed)
  exact ⟨first, second, _, _, hm, hs.replace_eq_merge hm hfuses, hs.merge hm hfuses rfl⟩

/-- The greedy rule keeps a graph sound and has one outcome. -/
theorem Greedy.unique [Ordered α] (hs : Sound g w) (harity : e.config.maxFusedArity ≤ 31)
    {n n' : Nat} {h h' : CircuitGraph α} (hg : Greedy e g n h) (hg' : Greedy e g n' h') :
    n = n' ∧ h = h' := by
  induction hg generalizing w n' with
  | done hnone =>
    cases hg' with
    | done => exact ⟨rfl, rfl⟩
    | merge hmem =>
      rw [hnone] at hmem
      simp at hmem
  | merge hmem hleast hmerge hrest ih =>
    cases hg' with
    | done hnone =>
      rw [hnone] at hmem
      simp at hmem
    | merge hmem' hleast' hmerge' hrest' =>
      have heq := ((mem_judged hs).mp hmem).2.eq_of_cmp hs ((mem_judged hs).mp hmem').2
        (Std.OrientedCmp.isLE_antisymm (hleast _ hmem') (hleast' _ hmem))
      obtain ⟨rfl, rfl⟩ := Prod.mk.inj heq
      obtain ⟨_, _, id, g', -, hreplace, hmerged⟩ := merge_of_mem_judged hs harity hmem
      obtain ⟨rfl, rfl⟩ := Prod.mk.inj (Except.ok.inj (hmerge.symm.trans hreplace))
      obtain ⟨-, rfl⟩ := Prod.mk.inj (Except.ok.inj (hmerge.symm.trans hmerge'))
      obtain ⟨rfl, rfl⟩ := ih hmerged.sound hrest'
      exact ⟨rfl, rfl⟩

lemma Greedy.judged_eq_nil {n : Nat} {h : CircuitGraph α} (hg : Greedy e g n h) :
    e.judged h = [] := by
  induction hg with
  | done hnone => exact hnone
  | merge _ _ _ _ ih => exact ih

lemma Greedy.sound (hs : Sound g w) (harity : e.config.maxFusedArity ≤ 31) {n : Nat}
    {h : CircuitGraph α} (hg : Greedy e g n h) : ∃ w', Sound h w' := by
  induction hg generalizing w with
  | done => exact ⟨w, hs⟩
  | merge hmem _ hmerge _ ih =>
    obtain ⟨_, _, id, g', -, hreplace, hmerged⟩ := merge_of_mem_judged hs harity hmem
    obtain ⟨-, rfl⟩ := Prod.mk.inj (Except.ok.inj (hmerge.symm.trans hreplace))
    exact ih hmerged.sound

end FusionEngine
end GateFusion
