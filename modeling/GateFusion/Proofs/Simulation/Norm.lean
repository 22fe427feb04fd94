import GateFusion.Proofs.Gate.Unitary
import GateFusion.Proofs.Simulation.Pipeline

/-!
# Norms through the pipeline

Standard gates are unitary, and compiled kernels leave what the gates of the circuit leave. So
neither fusion nor lowering lets the norm of a state drift.
-/

namespace GateFusion.Pipeline
variable {n : Nat} {engine : FusionEngine ℝ} {fused : CircuitGraph ℝ} {c : CompiledCircuit ℝ}

/-- However a circuit of standard gates is fused, running it leaves a state of the same norm. -/
theorem runNamed_normSq {name : String} {start circuit : Circuit ℝ} {gates : List (Gate ℝ)}
    (hstart : Circuit.empty name n = .ok start)
    (hgates : ∀ gate ∈ gates, ∃ g qs, Gate.standard g qs = .ok gate)
    (hcircuit : gates.foldlM Circuit.add start = .ok circuit)
    (hc : (Pipeline.mk engine Interpreter.backend).compile circuit.graph = .ok (c, fused))
    {named : String → Option ℝ} (hb : ∀ gate ∈ gates, Binds named gate.symbols)
    {amplitudes : Array (Cartesian ℝ)} (hsize : amplitudes.size = 2 ^ n) :
    ∃ out, c.runNamed amplitudes named = .ok out ∧ out.size = 2 ^ n ∧
      (Statevector.mk out n).normSq = (Statevector.mk amplitudes n).normSq := by
  have hregular : ∀ gate ∈ gates, gate.Regular := by
    intro gate hgate
    obtain ⟨g, qs, hstandard⟩ := hgates gate hgate
    exact Gate.regular_of_standard hstandard
  obtain ⟨w, hg⟩ := faithful_foldlM hregular (faithful_empty hstart) hcircuit
  have hd : totalDegree gates < 2 ^ 32 := by
    refine totalDegree_lt_of_le_one (fun gate hgate => ?_) hg.few
    obtain ⟨g, qs, hstandard⟩ := hgates gate hgate
    exact Gate.degree_le_one_of_standard hstandard
  obtain ⟨⟨out, m⟩, hrun, hwf, rfl, hamp⟩ := runNamed_spec hg hc hb hd hsize
  have hunitary : ∀ gate ∈ gates, gate.qubits.Nodup ∧ (∀ q ∈ gate.qubits, q < m) ∧
      Unitary gate.qubits.length (gate.matrix.value (valuation named)) := by
    intro gate hgate
    obtain ⟨g, qs, hstandard⟩ := hgates gate hgate
    exact ⟨(hregular gate hgate).nodup, (hg.valid gate hgate).2,
      Gate.unitary_of_standard hstandard _⟩
  have hs : (Statevector.mk amplitudes m).WellFormed := hsize
  refine ⟨out, hrun, hwf, ?_⟩
  rw [Statevector.normSq_eq hwf, Statevector.normSq_eq hs, hamp]
  exact sum_normSq_applyAll _ hunitary _

section Sample

/-- Two rotations by an angle that is known when the circuit runs. -/
theorem runNamed_normSq_rotations : ∃ (start circuit : Circuit ℝ) (fused : CircuitGraph ℝ)
    (c : CompiledCircuit ℝ) (out : Array (Cartesian ℝ)),
      Circuit.empty "rotations" 1 = .ok start ∧
      [rotation, rotation].foldlM Circuit.add start = .ok circuit ∧
      (Pipeline.mk ⟨⟨2, ⟨64, 0⟩⟩, .naive ⟨64, 0⟩⟩ Interpreter.backend).compile circuit.graph =
        .ok (c, fused) ∧
      c.runNamed (Statevector.zero 1).amplitudes (fun _ => some 1) = .ok out ∧
      (Statevector.mk out 1).normSq = (Statevector.zero (α := ℝ) 1).normSq := by
  obtain ⟨start, circuit, fused, c, hstart, hcircuit, hc⟩ := compile_rotations
  have hgates : ∀ gate ∈ [rotation, rotation], ∃ g qs, Gate.standard g qs = .ok gate := by
    intro gate hgate
    obtain rfl : gate = rotation := by simpa using hgate
    exact ⟨_, _, standard_rotation⟩
  have hb : ∀ gate ∈ [rotation, rotation], Binds (fun _ => some (1 : ℝ)) gate.symbols :=
    fun gate hgate n hn => rfl
  have hsize : (Statevector.zero (α := ℝ) 1).amplitudes.size = 2 ^ 1 := rfl
  obtain ⟨out, hrun, -, hnorm⟩ := runNamed_normSq hstart hgates hcircuit hc hb hsize
  exact ⟨start, circuit, fused, c, out, hstart, hcircuit, hc, hrun, hnorm⟩

end Sample

end GateFusion.Pipeline
