import Mathlib.Logic.Relation
import GateFusion.Proofs.Fusion.Engine

/-!
# Turns of the engine

One turn takes the cheapest candidate and either merges it or drops it because its blocks have
ceased to be fusable. A run is a sequence of turns, so what every turn preserves holds at its end;
and a run can only fail where the merge of some turn does.
-/

namespace GateFusion.FusionEngine
open Relation
variable {α : Type} [Scalar α]

/-- The progress and the queue after one candidate. -/
inductive Turn (e : FusionEngine α) :
    Progress α × CandidateSet α → Progress α × CandidateSet α → Prop
  | merge {p : Progress α} {s rest t : CandidateSet α} {c : Candidate α} {g : CircuitGraph α} :
    s.pop? = some (c, rest) → e.isCurrent p.graph c = true →
      e.mergeCandidate p.graph rest c = .ok (g, t) →
      Turn e (p, s) (⟨g, p.merges + 1, p.stale⟩, t)
  | drop {p : Progress α} {s rest : CandidateSet α} {c : Candidate α} :
    s.pop? = some (c, rest) → e.isCurrent p.graph c = false →
      Turn e (p, s) ({ p with stale := p.stale + 1 }, rest)

/-- Any number of turns. -/
def Turns (e : FusionEngine α) :
    Progress α × CandidateSet α → Progress α × CandidateSet α → Prop := ReflTransGen e.Turn

variable {e : FusionEngine α} {bound : Nat} {p p' : Progress α} {s : CandidateSet α}

/-- What every turn preserves, any number of turns does. -/
theorem Turns.preserves {P : Progress α → CandidateSet α → Prop}
    (hturn : ∀ {p s p' t}, P p s → e.Turn (p, s) (p', t) → P p' t) {t : CandidateSet α}
    (h : e.Turns (p, s) (p', t)) (hp : P p s) : P p' t := by
  have hlast : ∀ {last}, ReflTransGen e.Turn (p, s) last → P last.1 last.2 := by
    intro last h
    induction h with
    | refl => exact hp
    | tail _ hstep ih => exact hturn ih hstep
  exact hlast h

/-- The loop takes turns until it stops. -/
theorem turns_of_loop (h : e.loop bound p s = .ok p') : ∃ t, e.Turns (p, s) (p', t) := by
  induction p, s using FusionEngine.loop.induct e bound with
  | case1 p s hb hpop =>
    rw [loop_of_empty hpop] at h
    obtain rfl := Except.ok.inj h
    exact ⟨s, .refl⟩
  | case2 p s hb c rest hpop hcurrent ih =>
    rw [loop_of_current hb hpop hcurrent] at h
    obtain ⟨⟨g, t⟩, hmerge, h⟩ := bind_eq_ok.mp h
    obtain ⟨u, hturns⟩ := ih g t h
    exact ⟨u, .head (.merge hpop hcurrent hmerge) hturns⟩
  | case3 p s hb c rest hpop hstale ih =>
    rw [Bool.not_eq_true] at hstale
    rw [loop_of_stale hb hpop hstale] at h
    obtain ⟨u, hturns⟩ := ih h
    exact ⟨u, .head (.drop hpop hstale) hturns⟩
  | case4 p s hb =>
    rw [loop_of_bound hb] at h
    obtain rfl := Except.ok.inj h
    exact ⟨s, .refl⟩

/-- A run that succeeds takes turns from the candidates of its graph. -/
theorem turns_of_run {g g' : CircuitGraph α} {report : FusionReport α}
    (h : e.run g = .ok (report, g')) : ∃ initial done t, e.candidates g = .ok initial ∧
      e.Turns (⟨g, 0, 0⟩, initial) (done, t) ∧ g' = done.graph ∧
      report = ⟨g.numBlocks, done.graph.numBlocks, done.merges, done.stale, e.totalCost g,
        e.totalCost done.graph⟩ := by
  unfold run at h
  obtain ⟨initial, hinitial, h⟩ := bind_eq_ok.mp h
  obtain ⟨done, hloop, h⟩ := bind_eq_ok.mp h
  obtain ⟨t, hturns⟩ := turns_of_loop hloop
  obtain ⟨hreport, hgraph⟩ := Prod.mk.inj (Except.ok.inj h)
  exact ⟨initial, done, t, hinitial, hturns, hgraph.symm, hreport.symm⟩

end GateFusion.FusionEngine
