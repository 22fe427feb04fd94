import GateFusion.Proofs.Simulation.Pipeline
import GateFusion.Proofs.Circuit.Reachable

/-!
# Kernels at any width

Kernels may be generated for a register that is wider than the graph. They are always accepted, and
at every width they do what the gate-by-gate simulation does: they run where all symbols that are
left in the graph are bound, and then leave the same amplitudes.
-/

namespace GateFusion.Pipeline
open CircuitGraph Interpreter KernelSpec
variable {α : Type} [Exact α] {engine : FusionEngine α} {m n : Nat} {g g₀ : CircuitGraph α}
  {w : Qubit → List Nat} {c : CompiledCircuit α}

/-- Every sound graph that fits a width is lowered for it. -/
lemma exists_lower_generated (hs : Sound g w) (hm : g.numQubits ≤ n) (hn : n ≤ maxIndexWidth)
    (report : FusionReport α) : ∃ generated c, generate n g = .ok generated ∧
      (Pipeline.mk engine Interpreter.backend).lower n generated report = .ok c := by
  have hinside : ∀ gate ∈ g.gates, ∀ q ∈ gate.qubits, q < n :=
    fun gate hgate q hq => (hs.inside_gates gate hgate q hq).trans_le hm
  obtain ⟨generated, hgenerated⟩ := exists_generate hn hinside
  obtain ⟨slots, hlowered, -, -⟩ := generate_spec hgenerated
  obtain ⟨c, hc⟩ : ∃ c, (Pipeline.mk engine Interpreter.backend).lower n generated report = .ok c :=
    exists_lower hs.wellFormed_gates hlowered report
  exact ⟨generated, c, hgenerated, hc⟩

/-- At every width, running the kernels of a graph is applying its gates. -/
lemma runNamed_lowered (hs : Sound g w) (hm : g.numQubits ≤ n) {generated : GeneratedKernels α}
    {report : FusionReport α} (hgenerated : generate n g = .ok generated)
    (hlower : (Pipeline.mk engine Interpreter.backend).lower n generated report = .ok c)
    {amplitudes : Array (Cartesian α)} (hsize : amplitudes.size = 2 ^ n)
    (named : String → Option α) :
    ((∃ out, c.runNamed amplitudes named = .ok out) ↔
      ∀ gate ∈ g.gates, Binds named gate.symbols) ∧
    ∀ out, c.runNamed amplitudes named = .ok out ↔
      (Statevector.mk amplitudes n).applyGraph g named = (⟨out, n⟩, .ok ()) := by
  obtain ⟨hn, slots, hkernels, hstem, hprepares⟩ := lower_generated hgenerated hlower
  have hs' : (Statevector.mk amplitudes n).WellFormed := hsize
  have hinside : ∀ gate ∈ g.gates, ∀ q ∈ gate.qubits, q < (Statevector.mk amplitudes n).numQubits :=
    fun gate hgate q hq => (hs.inside_gates gate hgate q hq).trans_le hm
  have hslots : (∀ s ∈ slots, Binds named s.expr.symbols) ↔
      ∀ gate ∈ g.gates, Binds named gate.symbols := binds_slots_iff hkernels hstem
  have hrun : (∀ gate ∈ g.gates, Binds named gate.symbols) → ∃ t : Statevector α,
      c.runNamed amplitudes named = .ok t.amplitudes ∧ t.numQubits = n ∧
        (Statevector.mk amplitudes n).applyGraph g named = (t, .ok ()) := by
    intro hb
    obtain ⟨params, hfilled, hnamed⟩ :=
      CompiledCircuit.runNamed_eq hprepares (hslots.mpr hb) (hn ▸ hsize)
    obtain ⟨t, hkernel, hwf, hnum, hamp⟩ :=
      CompiledCircuit.foldlM_applyKernel hfilled hs.wellFormed_gates hkernels hs' rfl
    obtain ⟨u, hu, hwf', hnum', hamp'⟩ :=
      Statevector.applyGates_spec hs' hs.wellFormed_gates hinside hb
    have hut : u = t :=
      Statevector.ext_of_amp hwf' hwf (hnum'.trans hnum.symm) (hamp'.trans hamp.symm)
    rw [hut] at hu
    rw [hn] at hnamed
    exact ⟨t, hnamed.trans hkernel, hnum, hu⟩
  refine ⟨⟨?_, ?_⟩, fun out => ⟨?_, ?_⟩⟩
  · rintro ⟨out, hout⟩
    exact hslots.mp (CompiledCircuit.binds_of_runNamed hprepares hout)
  · intro hb
    obtain ⟨t, ht, -⟩ := hrun hb
    exact ⟨_, ht⟩
  · intro hout
    obtain ⟨t, ht, rfl, hgraph⟩ :=
      hrun (hslots.mp (CompiledCircuit.binds_of_runNamed hprepares hout))
    obtain rfl := Except.ok.inj (ht.symm.trans hout)
    exact hgraph
  · intro hgraph
    obtain ⟨t, ht, -, hgraph'⟩ := hrun (Statevector.of_applyGates hgraph).2
    obtain rfl := (Prod.mk.inj (hgraph'.symm.trans hgraph)).1
    exact ht

/-- Whatever calls a graph comes from, it is lowered for every register that holds its qubits. The
kernels run exactly where all symbols left in the graph are bound, that is where its gates can be
applied, and leave what the gates leave. -/
theorem lower_faithful (calls : List (Call α)) (h₀ : CircuitGraph.empty m = .ok g₀) (hm : m ≤ n)
    (hn : n ≤ maxIndexWidth) (engine : FusionEngine α) (report : FusionReport α) :
    ∃ generated c, generate n (g₀.run calls) = .ok generated ∧
      (Pipeline.mk engine Interpreter.backend).lower n generated report = .ok c ∧
      ∀ amplitudes : Array (Cartesian α), amplitudes.size = 2 ^ n → ∀ named : String → Option α,
        ((∃ out, c.runNamed amplitudes named = .ok out) ↔
          ∀ gate ∈ (g₀.run calls).gates, Binds named gate.symbols) ∧
        ∀ out, c.runNamed amplitudes named = .ok out ↔
          (Statevector.mk amplitudes n).applyGraph (g₀.run calls) named =
            (⟨out, n⟩, .ok ()) := by
  obtain ⟨w, hs⟩ := (Sound.empty h₀).run calls
  have hwidth : (g₀.run calls).numQubits ≤ n := by
    rw [(Sound.empty h₀).numQubits_run, numQubits_of_empty h₀]
    exact hm
  obtain ⟨generated, c, hgenerated, hlower⟩ := exists_lower_generated hs hwidth hn report
  exact ⟨generated, c, hgenerated, hlower, fun amplitudes hsize named =>
    runNamed_lowered hs hwidth hgenerated hlower hsize named⟩

/-- A fused graph is no exception, as calls lead to it too. -/
theorem exists_lower_fused (calls : List (Call α)) (h₀ : CircuitGraph.empty m = .ok g₀)
    (hm : m ≤ n) (hn : n ≤ maxIndexWidth) {report : FusionReport α}
    (hrun : engine.run (g₀.run calls) = .ok (report, g)) :
    ∃ generated c, generate n g = .ok generated ∧
      (Pipeline.mk engine Interpreter.backend).lower n generated report = .ok c ∧
      ∀ amplitudes : Array (Cartesian α), amplitudes.size = 2 ^ n →
        ∀ (named : String → Option α) out, c.runNamed amplitudes named = .ok out ↔
          (Statevector.mk amplitudes n).applyGraph g named = (⟨out, n⟩, .ok ()) := by
  obtain ⟨calls', rfl⟩ := FusionEngine.exists_calls_of_run h₀ calls hrun
  obtain ⟨w, hs⟩ := (Sound.empty h₀).run calls'
  have hwidth : (g₀.run calls').numQubits ≤ n := by
    rw [(Sound.empty h₀).numQubits_run, numQubits_of_empty h₀]
    exact hm
  obtain ⟨generated, c, hgenerated, hlower⟩ := exists_lower_generated hs hwidth hn report
  exact ⟨generated, c, hgenerated, hlower, fun amplitudes hsize named =>
    (runNamed_lowered hs hwidth hgenerated hlower hsize named).2⟩

section Sample

/-- One wire without a block. -/
def oneWire : CircuitGraph ℝ := ⟨#[], [], [], #[none], #[none], 0, 0⟩

lemma wellFormed_rotation : rotation.WellFormed :=
  (Gate.regular_of_standard standard_rotation).toWellFormed

/-- A rotation of one qubit in a register of three. -/
theorem lower_faithful_rotation : ∃ (generated : GeneratedKernels ℝ) (c : CompiledCircuit ℝ)
    (out : Array (Cartesian ℝ)),
      generate 3 (oneWire.run [.add rotation wellFormed_rotation]) = .ok generated ∧
      (Pipeline.mk ⟨⟨2, ⟨64, 0⟩⟩, .naive ⟨64, 0⟩⟩ Interpreter.backend).lower 3 generated
        ⟨1, 1, 0, 0, 4, 4⟩ = .ok c ∧
      c.runNamed (Statevector.zero 3).amplitudes (fun _ => some 1) = .ok out ∧
      (Statevector.zero 3).applyGraph (oneWire.run [.add rotation wellFormed_rotation])
        (fun _ => some 1) = (⟨out, 3⟩, .ok ()) := by
  have hempty : CircuitGraph.empty 1 = .ok oneWire := rfl
  obtain ⟨generated, c, hgenerated, hlower, hrun⟩ := lower_faithful (n := 3)
    [.add rotation wellFormed_rotation] hempty (by decide) (by decide)
    ⟨⟨2, ⟨64, 0⟩⟩, .naive ⟨64, 0⟩⟩ ⟨1, 1, 0, 0, 4, 4⟩
  obtain ⟨hbound, hsame⟩ := hrun (Statevector.zero 3).amplitudes rfl fun _ => some 1
  obtain ⟨out, hout⟩ := hbound.mpr fun gate hgate x hx => rfl
  exact ⟨generated, c, out, hgenerated, hlower, hout, (hsame out).mp hout⟩

end Sample

end GateFusion.Pipeline
