import GateFusion.Proofs.Gate.Binding
import GateFusion.Proofs.Simulation.Pipeline

/-!
# Circuits from placed gates

Standard gates with constant parameters, each placed on as many distinct qubits of the register as
it asks for, form a circuit unless there are more of them than numbers, and the circuit acts on a
state as the matrices do one after another.
-/

namespace GateFusion
variable {α : Type} [Exact α] {n : Nat}

/-- A gate with constant parameters, placed on distinct qubits of a register. -/
structure Placed (n : Nat) (p : Circuit.Placement α) : Prop where
  constant : ∀ e ∈ p.1.parameters, ∃ x, e = .constant x
  arity : p.2.length = p.1.numQubits
  nodup : p.2.Nodup
  inside : ∀ q ∈ p.2, q < n

/-- The amplitudes after a placed gate. -/
def placedAct (v : String → α) (amp : Nat → Cartesian α) (p : Circuit.Placement α) :
    Nat → Cartesian α :=
  match p.1.matrix with
  | .ok m => act p.2 (m.value v) amp
  | .error _ => amp

omit [Exact α] in
lemma StandardGate.numQubits_bounds (g : StandardGate α) : 0 < g.numQubits ∧ g.numQubits ≤ 3 := by
  cases g <;> simp [numQubits]

omit [Exact α] in
lemma Gate.firstDuplicate?_eq_none {qs seen : List Qubit} (hn : qs.Nodup)
    (h : ∀ q ∈ qs, q ∉ seen) : firstDuplicate? seen qs = none := by
  induction qs generalizing seen with
  | nil => rfl
  | cons q qs ih =>
    obtain ⟨hq, hn⟩ := List.nodup_cons.mp hn
    have hnot : ¬ seen.contains q = true := by simpa using h q (by simp)
    rw [firstDuplicate?, if_neg hnot]
    refine ih hn fun r hr hmem => ?_
    rcases List.mem_cons.mp hmem with rfl | hmem
    · exact hq hr
    · exact h r (by simp [hr]) hmem

namespace Placed
variable {p : Circuit.Placement α}

/-- Constant parameters leave no symbol in the matrix. -/
lemma exists_matrix (hp : Placed n p) :
    ∃ m, p.1.matrix = .ok m ∧ ∀ lookup : String → Option α, Binds lookup m.symbols := by
  have hsettles : ∀ e ∈ p.1.parameters, StandardGate.Settles (fun _ => none) e := by
    intro e he
    obtain ⟨x, rfl⟩ := hp.constant e he
    exact StandardGate.settles_of_toAngle rfl fun _ hx => absurd hx List.not_mem_nil
  obtain ⟨m, early, hm, -, hmatrix⟩ := StandardGate.settles_matrix hsettles
  obtain ⟨values, hvalues, -⟩ := hmatrix.evaluate
  obtain ⟨hbound, -⟩ := GateMatrix.evaluate_eq_some.mp hvalues
  exact ⟨m, hm, fun lookup x hx => absurd (hbound x hx) Bool.false_ne_true⟩

lemma exists_gate (hp : Placed n p) : ∃ m, p.1.matrix = .ok m ∧
    Gate.standard p.1 p.2 = .ok ⟨p.1.name, p.2, m⟩ ∧
    ∀ lookup : String → Option α, Binds lookup m.symbols := by
  obtain ⟨m, hm, hbound⟩ := hp.exists_matrix
  have hwidth : p.2.length ≤ maxIndexWidth := by
    rw [hp.arity]
    exact p.1.numQubits_bounds.2.trans (by decide)
  have hsize : m.numQubits = p.2.length :=
    (StandardGate.fits_matrix hm).numQubits.trans hp.arity.symm
  refine ⟨m, hm, ?_, hbound⟩
  rw [Gate.standard, if_pos hp.arity, hm]
  change Gate.ofMatrix p.1.name p.2 m = _
  rw [Gate.ofMatrix, checkIndexWidth_eq_ok.mpr hwidth,
    Gate.firstDuplicate?_eq_none hp.nodup fun _ _ => List.not_mem_nil]
  change (if m.numQubits = p.2.length then _ else _) = _
  rw [if_pos hsize]

omit [Exact α] in
lemma exists_addBlock (hp : Placed n p) {g : CircuitGraph α} (hn : g.numQubits = n)
    (hroom : g.nextOrigin < maxGates) (name : String) (m : GateMatrix α) :
    ∃ id g', g.addBlock ⟨name, p.2, m⟩ = .ok (id, g') := by
  have hpos : p.2 ≠ [] := by
    apply List.ne_nil_of_length_pos
    rw [hp.arity]
    exact p.1.numQubits_bounds.1
  have hcheck : g.checkGate ⟨name, p.2, m⟩ = .ok () :=
    CircuitGraph.checkGate_eq_ok.mpr ⟨hpos, hn ▸ hp.inside, hroom⟩
  rw [CircuitGraph.addBlock_eq, hcheck]
  exact ⟨_, _, rfl⟩

end Placed

namespace Circuit

/-- Placed gates can all be added, and act one after another. -/
lemma foldlM_apply_spec {ps : List (Placement α)} (hps : ∀ p ∈ ps, Placed n p)
    (start : Circuit α) {w : Qubit → List Nat} {accepted : List (Gate α)}
    (hstart : Faithful n start.graph w accepted)
    (hbound : ∀ gate ∈ accepted, ∀ lookup : String → Option α, Binds lookup gate.symbols)
    (hle : ∀ gate ∈ accepted, gate.degree ≤ 1)
    (hfew : accepted.length + ps.length ≤ maxGates) :
    ∃ c w' gates, ps.foldlM apply start = .ok c ∧ Faithful n c.graph w' gates ∧
      (∀ gate ∈ gates, ∀ lookup : String → Option α, Binds lookup gate.symbols) ∧
      (∀ gate ∈ gates, gate.degree ≤ 1) ∧
      ∀ v amp, applyAll v gates amp = ps.foldl (placedAct v) (applyAll v accepted amp) := by
  induction ps generalizing start w accepted with
  | nil => exact ⟨start, w, accepted, rfl, hstart, hbound, hle, fun _ _ => rfl⟩
  | cons p ps ih =>
    have hp := hps p (by simp)
    obtain ⟨m, hm, hgate, hsymbols⟩ := hp.exists_gate
    rw [List.length_cons] at hfew
    have hcount := hstart.count
    obtain ⟨id, g', hadd⟩ := hp.exists_addBlock hstart.numQubits (by omega) p.1.name m
    obtain ⟨w', hnext⟩ := hstart.add (Gate.regular_of_standard hgate) hadd
    have hbound' : ∀ gate ∈ accepted ++ [⟨p.1.name, p.2, m⟩],
        ∀ lookup : String → Option α, Binds lookup gate.symbols := by
      intro gate hmem lookup
      rcases List.mem_append.mp hmem with hmem | hmem
      · exact hbound gate hmem lookup
      · obtain rfl := List.mem_singleton.mp hmem
        exact hsymbols lookup
    have hle' : ∀ gate ∈ accepted ++ [⟨p.1.name, p.2, m⟩], gate.degree ≤ 1 := by
      intro gate hmem
      rcases List.mem_append.mp hmem with hmem | hmem
      · exact hle gate hmem
      · obtain rfl := List.mem_singleton.mp hmem
        exact Gate.degree_le_one_of_standard hgate
    obtain ⟨c, w'', gates, hc, hfaithful, hfree, hplain, hact⟩ :=
      ih (fun q hq => hps q (by simp [hq])) { start with graph := g' } hnext hbound' hle' (by
        rw [List.length_append, List.length_singleton]
        omega)
    have hstep : start.apply p = .ok { start with graph := g' } := by
      rw [apply, hgate]
      change start.add _ = _
      rw [add, hadd]
      rfl
    refine ⟨c, w'', gates, ?_, hfaithful, hfree, hplain, fun v amp => ?_⟩
    · rw [List.foldlM_cons, hstep]
      exact hc
    · rw [hact, applyAll_append, List.foldl_cons]
      congr 1
      rw [placedAct, hm]
      rfl

/-- Placed gates form a circuit, and its graph can be applied to every state of its width. -/
theorem ofPlacements_spec (name : String) {placements : Nat → List (Placement α)}
    (hn : n ≤ maxIndexWidth) (hps : ∀ p ∈ placements n, Placed n p)
    (hfew : (placements n).length ≤ maxGates) :
    ∃ c, ofPlacements name placements n = .ok c ∧
      ∀ (s : Statevector α) (lookup : String → Option α), s.WellFormed → s.numQubits = n →
        ∃ t, s.applyGraph c.graph lookup = (t, .ok ()) ∧ t.WellFormed ∧ t.numQubits = n ∧
          t.amp = (placements n).foldl (placedAct (valuation lookup)) s.amp := by
  obtain ⟨start, hstart⟩ : ∃ start : Circuit α, Circuit.empty name n = .ok start := by
    rw [Circuit.empty, CircuitGraph.empty, checkIndexWidth_eq_ok.mpr hn]
    exact ⟨_, rfl⟩
  obtain ⟨c, w, gates, hc, hfaithful, hbound, hle, hact⟩ :=
    foldlM_apply_spec hps start (Pipeline.faithful_empty hstart) (by simp) (by simp) (by simpa)
  refine ⟨c, ?_, fun s lookup hs hsize => ?_⟩
  · rw [ofPlacements, hstart]
    exact hc
  · have hbinds : ∀ gate ∈ gates, Binds lookup gate.symbols := fun gate h => hbound gate h lookup
    obtain ⟨t, ht, happly⟩ := hfaithful.applyGraph_eq hs hsize.ge hbinds
      (totalDegree_lt_of_le_one hle hfaithful.few)
    obtain ⟨u, hu, hwf, hun, hamp⟩ := Statevector.applyGates_spec hs
      (fun gate hgate => (hfaithful.valid gate hgate).1.toWellFormed)
      (fun gate hgate q hq => hsize ▸ (hfaithful.valid gate hgate).2 q hq) hbinds
    obtain rfl : t = u := congrArg Prod.fst (happly.symm.trans hu)
    refine ⟨t, ht, hwf, hun.trans hsize, ?_⟩
    rw [hamp, hact]
    rfl

end Circuit
end GateFusion
