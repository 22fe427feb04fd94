import GateFusion.Proofs.State.Schedule

/-!
# Failures

Gates are applied in place, one after another, until one is refused. A gate is refused before it
touches the state, but those before it are not taken back. So a failing simulation leaves the state
between two gates: the one that the gates in front of the refused one lead to.
-/

namespace GateFusion
open CircuitGraph

namespace Statevector

section Loop
variable {α : Type} [Scalar α] {lookup : String → Option α} {s t : Statevector α}
  {e : SimulationError}

/-- Gates are applied until one is refused. -/
lemma applyGates_eq_error {gs : List (Gate α)} : applyGates lookup gs s = (t, .error e) ↔
    ∃ front gate back, gs = front ++ gate :: back ∧ applyGates lookup front s = (t, .ok ()) ∧
      t.applyGate gate lookup = .error e := by
  induction gs generalizing s with
  | nil => simp [applyGates]
  | cons g gs ih =>
    rw [applyGates]
    cases hg : s.applyGate g lookup with
    | error e' =>
      constructor
      · intro h
        obtain ⟨rfl, he⟩ := Prod.mk.inj h
        obtain rfl := Except.error.inj he
        exact ⟨[], g, gs, rfl, rfl, hg⟩
      · rintro ⟨front, gate, back, hsplit, hfront, hgate⟩
        cases front with
        | nil =>
          obtain ⟨rfl, rfl⟩ := List.cons.inj hsplit
          obtain ⟨rfl, -⟩ := Prod.mk.inj hfront
          obtain rfl := Except.error.inj (hg.symm.trans hgate)
          rfl
        | cons k front =>
          obtain ⟨rfl, -⟩ := List.cons.inj hsplit
          rw [applyGates, hg] at hfront
          cases hfront
    | ok u =>
      dsimp only
      rw [ih]
      constructor
      · rintro ⟨front, gate, back, rfl, hfront, hgate⟩
        refine ⟨g :: front, gate, back, rfl, ?_, hgate⟩
        rw [applyGates, hg]
        exact hfront
      · rintro ⟨front, gate, back, hsplit, hfront, hgate⟩
        cases front with
        | nil =>
          obtain ⟨rfl, rfl⟩ := List.cons.inj hsplit
          obtain ⟨rfl, -⟩ := Prod.mk.inj hfront
          rw [hg] at hgate
          cases hgate
        | cons k front =>
          obtain ⟨rfl, rfl⟩ := List.cons.inj hsplit
          rw [applyGates, hg] at hfront
          exact ⟨front, gate, back, rfl, hfront, hgate⟩

/-- Whether a gate is refused, and why, depends on the size of the state only. -/
lemma applyGate_eq_error_congr (hn : t.numQubits = s.numQubits) {gate : Gate α} :
    t.applyGate gate lookup = .error e ↔ s.applyGate gate lookup = .error e := by
  unfold applyGate
  rw [hn]
  split
  · rfl
  · split
    · simp
    · rfl

end Loop

variable {α : Type} [Exact α] {lookup : String → Option α} {s t : Statevector α}

/-- The state has the qubits of the gate, and the symbols of the gate are bound. -/
def Accepts (s : Statevector α) (lookup : String → Option α) (gate : Gate α) : Prop :=
  (∀ q ∈ gate.qubits, q < s.numQubits) ∧ Binds lookup gate.symbols

/-- What accepted gates leave behind determines the state. -/
lemma applyGates_eq_ok_iff (hs : s.WellFormed) {gs : List (Gate α)}
    (hgs : ∀ gate ∈ gs, gate.WellFormed) : applyGates lookup gs s = (t, .ok ()) ↔
      (∀ gate ∈ gs, s.Accepts lookup gate) ∧ t.WellFormed ∧ t.numQubits = s.numQubits ∧
        t.amp = applyAll (valuation lookup) gs s.amp := by
  constructor
  · intro h
    obtain ⟨hq, hb⟩ := of_applyGates h
    obtain ⟨u, hu, hwf, hn, hamp⟩ := applyGates_spec hs hgs hq hb
    obtain rfl : u = t := congrArg Prod.fst (hu.symm.trans h)
    exact ⟨fun gate hgate => ⟨hq gate hgate, hb gate hgate⟩, hwf, hn, hamp⟩
  · rintro ⟨haccepts, hwf, hn, hamp⟩
    obtain ⟨u, hu, hwfu, hnu, hampu⟩ := applyGates_spec hs hgs
      (fun gate hgate => (haccepts gate hgate).1) fun gate hgate => (haccepts gate hgate).2
    have hut : u = t := ext_of_amp hwfu hwf (hnu.trans hn.symm) (hampu.trans hamp.symm)
    rw [hu, hut]

/-- A failing simulation of a graph that calls lead to stops at the first gate that is refused, with
the error of that gate, and leaves what the gates in front of it have done. -/
theorem applyGraph_stops {n : Nat} {g₀ : CircuitGraph α} (calls : List (Call α))
    (h₀ : CircuitGraph.empty n = .ok g₀) (hs : s.WellFormed) (lookup : String → Option α)
    (e : SimulationError) : s.applyGraph (g₀.run calls) lookup = (t, .error e) ↔
      ∃ front gate back, (g₀.run calls).gates = front ++ gate :: back ∧
        (∀ k ∈ front, s.Accepts lookup k) ∧ s.applyGate gate lookup = .error e ∧
        t.WellFormed ∧ t.numQubits = s.numQubits ∧
        t.amp = applyAll (valuation lookup) front s.amp := by
  obtain ⟨w, hsound⟩ := (Sound.empty h₀).run calls
  change applyGates lookup (g₀.run calls).gates s = (t, .error e) ↔ _
  rw [applyGates_eq_error]
  refine exists_congr fun front => exists_congr fun gate => exists_congr fun back => ?_
  refine and_congr_right fun hsplit => ?_
  have hfront : ∀ k ∈ front, k.WellFormed := by
    intro k hk
    apply hsound.wellFormed_gates k
    rw [hsplit]
    exact List.mem_append_left _ hk
  rw [applyGates_eq_ok_iff hs hfront]
  constructor
  · rintro ⟨⟨haccepts, hwf, hn, hamp⟩, hgate⟩
    exact ⟨haccepts, (applyGate_eq_error_congr hn).mp hgate, hwf, hn, hamp⟩
  · rintro ⟨haccepts, hgate, hwf, hn, hamp⟩
    exact ⟨⟨haccepts, hwf, hn, hamp⟩, (applyGate_eq_error_congr hn).mpr hgate⟩

end Statevector

section Sample
open Schedule

lemma gates_unlinked (x y : Gate ℝ) : (⟨#[some ⟨x, 0, 0, [0]⟩, some ⟨y, 1, 1, [1]⟩], [], [],
    #[some 0, some 1], #[some 0, some 1], 2, 2⟩ : CircuitGraph ℝ).gates = [x, y] := rfl

lemma gates_sideBySide : sideBySide.gates = [bitFlip, besideFlip] :=
  gates_unlinked bitFlip besideFlip

lemma applyGate_besideFlip : (Statevector.zero 1).applyGate besideFlip (fun _ => none) =
    .error (.qubitOutOfRange "h" 1 1) := rfl

/-- The gate on qubit zero has been applied when the one on qubit one is refused. -/
lemma applyGraph_sideBySide : ∃ t : Statevector ℝ, t.WellFormed ∧ t.numQubits = 1 ∧
    t.amp = applyAll (valuation fun _ => none) [bitFlip] (Statevector.zero 1).amp ∧
    (Statevector.zero 1).applyGate bitFlip (fun _ => none) = .ok t := by
  have hinside : ∀ q ∈ bitFlip.qubits, q < (Statevector.zero (α := ℝ) 1).numQubits := by decide
  have hbinds : Binds (α := ℝ) (fun _ => none) bitFlip.symbols := fun n hn =>
    absurd hn (List.not_mem_nil (a := n))
  obtain ⟨t, ht, hwf, hn, hamp⟩ := Statevector.applyGate_spec (s := .zero 1) rfl
    regular_sideBySide.1.toWellFormed hinside hbinds
  exact ⟨t, hwf, hn, hamp, ht⟩

/-- A state of one qubit, and a graph whose second gate acts on another one. -/
theorem applyGraph_stops_sideBySide : ∃ t : Statevector ℝ,
    t.amp = applyAll (valuation fun _ => none) [bitFlip] (Statevector.zero 1).amp ∧
      (Statevector.zero 1).applyGraph sideBySide (fun _ => none) =
        (t, .error (.qubitOutOfRange "h" 1 1)) := by
  obtain ⟨t, hwf, hn, hamp, -⟩ := applyGraph_sideBySide
  have hstops := Statevector.applyGraph_stops (s := .zero 1) (t := t) twoAdditions empty_twoWires
    rfl (fun _ => none) (.qubitOutOfRange "h" 1 1)
  rw [run_twoAdditions] at hstops
  refine ⟨t, hamp, hstops.mpr ⟨[bitFlip], besideFlip, [], gates_sideBySide, ?_,
    applyGate_besideFlip, hwf, hn, hamp⟩⟩
  intro k hk
  obtain rfl := List.mem_singleton.mp hk
  exact ⟨by decide, fun n hn => absurd hn (List.not_mem_nil (a := n))⟩

/-- A failing simulation may leave another state behind. -/
theorem applyGraph_keeps_front : ∃ (t : Statevector ℝ) (e : SimulationError),
    CircuitGraph.empty 2 = .ok twoWires ∧ twoWires.run twoAdditions = sideBySide ∧
      (Statevector.zero 1).applyGraph sideBySide (fun _ => none) = (t, .error e) ∧
      t.amplitudes ≠ (Statevector.zero 1).amplitudes := by
  obtain ⟨t, -, hn, hamp, ht⟩ := applyGraph_sideBySide
  refine ⟨t, .qubitOutOfRange "h" 1 1, empty_twoWires, run_twoAdditions, ?_, fun hsame => ?_⟩
  · change Statevector.applyGates _ sideBySide.gates _ = _
    rw [gates_sideBySide, Statevector.applyGates_eq_error]
    refine ⟨[bitFlip], besideFlip, [], rfl, ?_, ?_⟩
    · rw [Statevector.applyGates, ht]
      rfl
    · rw [Statevector.applyGate_eq_error_congr (s := .zero 1) hn]
      exact applyGate_besideFlip
  · have hzero : t.amp 0 = 0 := by
      rw [hamp]
      change ∑ c ∈ Finset.range 2, Quad.pauliX.single.value _ (GateMatrix.gather [0] 0) c *
        (Statevector.zero 1).amp (patch [0] 0 c) = 0
      have hentry : Quad.pauliX.single.value (valuation fun _ => none) 0 0 = (0 : Cartesian ℝ) := by
        rw [Quad.single, GateMatrix.value_ofFn Nat.two_pos Nat.two_pos]
        rfl
      have hother : (Statevector.zero (α := ℝ) 1).amp (patch [0] 0 1) = 0 := rfl
      have hrow : GateMatrix.gather [0] 0 = 0 := rfl
      rw [Finset.sum_range_succ, Finset.sum_range_one, hrow, hentry, hother, zero_mul, mul_zero,
        add_zero]
    have hone : t.amp 0 = 1 := by
      rw [Statevector.amp, hsame]
      rfl
    have hre := congrArg Cartesian.re (hzero.symm.trans hone)
    exact zero_ne_one hre

end Sample
end GateFusion
