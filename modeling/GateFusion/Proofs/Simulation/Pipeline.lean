import GateFusion.Proofs.Fusion.Faithful
import GateFusion.Proofs.Kernel.Buffer
import GateFusion.Simulation.Pipeline

/-!
# The pipeline

A compiled circuit leaves the amplitudes that the gate-by-gate simulation leaves on the circuit it
was compiled from: fusion keeps the meaning of the gates, every kernel does what its block does, and
the buffer holds what the kernels read.
-/

namespace GateFusion
open Interpreter KernelSpec
variable {α : Type} [Exact α] {n : Nat} {slots : List (ParameterSlot α)}

/-- A compiled kernel runs what a gate was lowered to. -/
structure Compiled (n : Nat) (slots : List (ParameterSlot α)) (gate : Gate α)
    (k : CompiledKernel α) : Prop where
  lowered : Lowered n slots gate k.spec
  fn : k.fn = runKernel (sparseRows k.spec) k.spec.indexing.offsets k.spec.arity

namespace CompiledCircuit
variable {v : String → α} {params : List α} {s : Statevector α}

lemma applyKernel_spec (hf : Filled slots v params) {gate : Gate α} (hgate : gate.WellFormed)
    {k : CompiledKernel α} (hk : Compiled n slots gate k) (hs : s.WellFormed)
    (hn : s.numQubits = n) : ∃ t : Statevector α,
      applyKernel n params s.amplitudes k = .ok t.amplitudes ∧ t.WellFormed ∧ t.numQubits = n ∧
        t.amp = gate.apply v s.amp := by
  subst hn
  obtain ⟨t, hrun, hnum, hwf, hamp⟩ := runKernel_spec hs hgate.nodup hk.lowered.indexing
    hk.lowered.qubits (holds_of_lowered hgate hf hk.lowered)
  refine ⟨t, ?_, hwf, hnum, hamp⟩
  unfold applyKernel
  rw [hk.fn, hrun]

lemma foldlM_applyKernel (hf : Filled slots v params) {gates : List (Gate α)}
    (hgates : ∀ gate ∈ gates, gate.WellFormed) {kernels : List (CompiledKernel α)}
    (hk : List.Forall₂ (Compiled n slots) gates kernels) (hs : s.WellFormed)
    (hn : s.numQubits = n) : ∃ t : Statevector α,
      kernels.foldlM (applyKernel n params) s.amplitudes = .ok t.amplitudes ∧ t.WellFormed ∧
        t.numQubits = n ∧ t.amp = applyAll v gates s.amp := by
  induction hk generalizing s with
  | nil => exact ⟨s, rfl, hs, hn, rfl⟩
  | cons hk _ ih =>
    obtain ⟨t, hstep, hwf, hnum, hamp⟩ := applyKernel_spec hf (hgates _ (by simp)) hk hs hn
    obtain ⟨u, hrest, hwf', hnum', hamp'⟩ := ih (fun gate hgate => hgates gate (by simp [hgate]))
      hwf hnum
    refine ⟨u, ?_, hwf', hnum', ?_⟩
    · rw [List.foldlM_cons, hstep]
      exact hrest
    · rw [hamp', hamp, applyAll_cons]

/-- The preparation of a circuit fills the given slots. -/
structure Prepares (c : CompiledCircuit α) (slots : List (ParameterSlot α)) : Prop where
  none : c.preparation = none → slots = []
  some : ∀ p, c.preparation = some p → p.preparation.slots = slots ∧
    p.preparation.parameters = NameSet.ofList (slots.flatMap fun s => s.expr.symbols) ∧
    p.fn = fun values buffer => fillSlots p.preparation values slots buffer

/-- With a filled buffer, running a circuit is running its kernels. -/
lemma run_eq {c : CompiledCircuit α} {values : List α} (hbuffer : c.buffer values = .ok params)
    {amplitudes : Array (Cartesian α)} (hsize : amplitudes.size = 2 ^ c.numQubits) :
    c.run amplitudes values = c.kernels.foldlM (applyKernel c.numQubits params) amplitudes := by
  have hwidth : ¬ amplitudes.size ≠ Nat.pow 2 c.numQubits := not_not_intro hsize
  unfold run
  rw [if_neg hwidth, hbuffer]
  rfl

/-- Named values that bind all symbols of the slots fill the buffer. -/
lemma runNamed_eq {c : CompiledCircuit α} (hc : Prepares c slots) {named : String → Option α}
    (hb : ∀ s ∈ slots, Binds named s.expr.symbols) {amplitudes : Array (Cartesian α)}
    (hsize : amplitudes.size = 2 ^ c.numQubits) : ∃ params,
      Filled slots (valuation named) params ∧ c.runNamed amplitudes named =
        c.kernels.foldlM (applyKernel c.numQubits params) amplitudes := by
  unfold runNamed
  cases hp : c.preparation with
  | none =>
    obtain rfl := hc.none hp
    refine ⟨[], fun j s hs => by simp at hs, run_eq ?_ hsize⟩
    unfold buffer
    rw [hp]
    rfl
  | some p =>
    obtain ⟨hslots, hparameters, hfn⟩ := hc.some p hp
    have hmem : ∀ x, x ∈ p.preparation.parameters ↔ ∃ s ∈ slots, x ∈ s.expr.symbols := by
      intro x
      rw [hparameters, NameSet.mem_ofList, List.mem_flatMap]
    have hbind : p.preparation.bind named =
        .ok (p.preparation.parameters.map (valuation named)) := by
      refine Preparation.bind_eq_ok fun x hx => ?_
      obtain ⟨s, hs, hx⟩ := (hmem x).mp hx
      exact hb s hs x hx
    have hlen : (List.replicate p.preparation.bufferLen (0 : α)).length = 2 * slots.length := by
      rw [List.length_replicate, Preparation.bufferLen, Preparation.numSlots, hslots]
    refine ⟨_, Preparation.filled_fillSlots (valuation named)
      (fun s hs x hx => (hmem x).mpr ⟨s, hs, hx⟩) hlen.ge, ?_⟩
    dsimp only
    rw [hbind]
    refine run_eq ?_ hsize
    unfold buffer
    rw [hp]
    dsimp only
    rw [Preparation.checkValues_map, hfn]
    rfl

/-- A run with named values has found the symbols of all slots. -/
lemma binds_of_runNamed {c : CompiledCircuit α} (hc : Prepares c slots)
    {named : String → Option α} {amplitudes out : Array (Cartesian α)}
    (h : c.runNamed amplitudes named = .ok out) : ∀ s ∈ slots, Binds named s.expr.symbols := by
  intro s hs
  unfold runNamed at h
  cases hp : c.preparation with
  | none =>
    rw [hc.none hp] at hs
    exact absurd hs List.not_mem_nil
  | some p =>
    rw [hp] at h
    obtain ⟨values, hbind, -⟩ := bind_eq_ok.mp h
    refine (Preparation.binds_of_bind hbind).mono fun x hx => ?_
    rw [(hc.some p hp).2.1, NameSet.mem_ofList, List.mem_flatMap]
    exact ⟨s, hs, hx⟩

end CompiledCircuit

/-- The slots of compiled kernels and the gates they stem from mention the same symbols. -/
lemma binds_slots_iff {gates : List (Gate α)} {kernels : List (CompiledKernel α)}
    (hk : List.Forall₂ (Compiled n slots) gates kernels) (hstem : Stem slots gates)
    {named : String → Option α} : (∀ s ∈ slots, Binds named s.expr.symbols) ↔
      ∀ gate ∈ gates, Binds named gate.symbols := by
  constructor
  · intro h gate hgate x hx
    obtain ⟨entry, hentry, hx⟩ := GateMatrix.mem_symbols.mp hx
    cases entry with
    | numeric c => exact absurd hx List.not_mem_nil
    | symbolic p =>
      obtain ⟨k, -, hcompiled⟩ := exists_of_forall₂ hk hgate
      obtain ⟨s, hs, rfl⟩ := hcompiled.lowered.exists_slot hentry
      exact h s hs x hx
  · intro h s hs x hx
    obtain ⟨gate, hgate, hentry⟩ := hstem s hs
    exact h gate hgate x (GateMatrix.mem_symbols.mpr ⟨_, hentry, hx⟩)

namespace Pipeline
open CircuitGraph
variable {engine : FusionEngine α} {g fused : CircuitGraph α} {c : CompiledCircuit α}

lemma compileKernel_eq {spec : KernelSpec α} {fn : KernelFn α}
    (h : Interpreter.compileKernel spec = .ok fn) :
    fn = runKernel (sparseRows spec) spec.indexing.offsets spec.arity := by
  unfold Interpreter.compileKernel at h
  dsimp only at h
  split at h
  · exact (Except.ok.inj h).symm
  · simp at h

lemma lower_spec {generated : GeneratedKernels α} {report : FusionReport α}
    (h : (Pipeline.mk engine Interpreter.backend).lower n generated report = .ok c) :
    c.numQubits = n ∧
      List.Forall₂ (fun spec k => k.spec = spec ∧
        k.fn = runKernel (sparseRows spec) spec.indexing.offsets spec.arity)
          generated.kernels c.kernels ∧
      c.preparation = generated.preparation.map fun prep =>
        ⟨prep, fun values buffer => fillSlots prep values prep.slots buffer⟩ := by
  unfold lower at h
  obtain ⟨kernels, hkernels, h⟩ := bind_eq_ok.mp h
  have hcircuit : c = ⟨n, kernels, generated.preparation.map fun prep =>
      ⟨prep, fun values buffer => fillSlots prep values prep.slots buffer⟩, report⟩ := by
    cases hprep : generated.preparation with
    | none =>
      rw [hprep] at h
      exact (Except.ok.inj h).symm
    | some prep =>
      rw [hprep] at h
      exact (Except.ok.inj h).symm
  subst hcircuit
  refine ⟨rfl, (forall₂_of_mapM hkernels).imp fun spec k hk => ?_, rfl⟩
  obtain ⟨fn, hcompile, hk⟩ := bind_eq_ok.mp hk
  obtain rfl := Except.ok.inj hk
  exact ⟨rfl, compileKernel_eq (mapError_eq_ok.mp hcompile)⟩

/-- Lowering what was generated for a graph leaves kernels for its gates, and fills their slots. -/
lemma lower_generated {generated : GeneratedKernels α} {report : FusionReport α}
    (hgenerated : generate n g = .ok generated)
    (hlower : (Pipeline.mk engine Interpreter.backend).lower n generated report = .ok c) :
    c.numQubits = n ∧ ∃ slots, List.Forall₂ (Compiled n slots) g.gates c.kernels ∧
      Stem slots g.gates ∧ CompiledCircuit.Prepares c slots := by
  obtain ⟨slots, hlowered, hstem, hpreparation⟩ := generate_spec hgenerated
  obtain ⟨hn, hkernels, hprepared⟩ := lower_spec hlower
  refine ⟨hn, slots, ?_, hstem, ?_⟩
  · refine forall₂_trans (fun gate spec k hl hk => ?_) hlowered hkernels
    obtain ⟨rfl, hfn⟩ := hk
    exact ⟨hl, hfn⟩
  · rw [hpreparation] at hprepared
    cases slots with
    | nil => exact ⟨fun _ => rfl, fun p hp => by simp [hprepared] at hp⟩
    | cons s slots =>
      refine ⟨fun hnone => by simp [hprepared] at hnone, fun p hp => ?_⟩
      obtain rfl := Option.some.inj (hprepared.symm.trans hp)
      exact ⟨rfl, rfl, rfl⟩

/-- What a successful compilation leaves: a fused graph, and kernels for its gates. -/
lemma compile_spec (h : (Pipeline.mk engine Interpreter.backend).compile g = .ok (c, fused)) :
    (∃ report, engine.run g = .ok (report, fused)) ∧ c.numQubits = fused.numQubits ∧
      ∃ slots, List.Forall₂ (Compiled fused.numQubits slots) fused.gates c.kernels ∧
        Stem slots fused.gates ∧ CompiledCircuit.Prepares c slots := by
  unfold compile at h
  obtain ⟨⟨report, g'⟩, hrun, h⟩ := bind_eq_ok.mp h
  obtain ⟨generated, hgenerated, h⟩ := bind_eq_ok.mp h
  obtain ⟨c', hlower, h⟩ := bind_eq_ok.mp h
  obtain ⟨rfl, rfl⟩ := Prod.mk.inj (Except.ok.inj h)
  exact ⟨⟨report, hrun⟩, lower_generated hgenerated hlower⟩

/-- The interpreter accepts every kernel that a gate was lowered to. -/
lemma exists_lower {gates : List (Gate α)} (hgates : ∀ gate ∈ gates, gate.WellFormed)
    {generated : GeneratedKernels α} (hl : List.Forall₂ (Lowered n slots) gates generated.kernels)
    (report : FusionReport α) :
    ∃ c, (Pipeline.mk engine Interpreter.backend).lower n generated report = .ok c := by
  have hsize : ∀ spec ∈ generated.kernels, spec.matrix.size = spec.dim * spec.dim := by
    have hboth : List.Forall₂ (fun spec gate => gate.WellFormed ∧ Lowered n slots gate spec)
        generated.kernels gates := List.Forall₂.flip ((List.forall₂_and_left _ _).mpr ⟨hgates, hl⟩)
    exact ((List.forall₂_and_left _ _).mp (hboth.imp fun spec gate h => ⟨h.2.size_eq h.1, h⟩)).1
  have hkernels : (generated.kernels.mapM fun spec => do
      let fn ← (Interpreter.backend.compileKernel spec).mapError CompileError.backend
      return CompiledKernel.mk spec fn : Except (CompileError α) (List (CompiledKernel α))) =
        .ok (generated.kernels.map fun spec =>
          ⟨spec, runKernel (sparseRows spec) spec.indexing.offsets spec.arity⟩) := by
    refine mapM_eq_ok fun spec hspec => ?_
    have hcompile : Interpreter.backend.compileKernel spec =
        .ok (runKernel (sparseRows spec) spec.indexing.offsets spec.arity) := by
      change Interpreter.compileKernel spec = _
      unfold Interpreter.compileKernel
      exact if_pos (hsize spec hspec)
    rw [hcompile]
    rfl
  unfold lower
  rw [hkernels]
  cases generated.preparation with
  | none => exact ⟨_, rfl⟩
  | some prep => exact ⟨_, rfl⟩

/-- Compilation succeeds where fusion does. -/
theorem exists_compile {w : Qubit → List Nat} {accepted : List (Gate α)}
    (hg : Faithful n g w accepted) (hwidth : n ≤ maxIndexWidth) {report : FusionReport α}
    (hrun : engine.run g = .ok (report, fused)) :
    ∃ c, (Pipeline.mk engine Interpreter.backend).compile g = .ok (c, fused) := by
  obtain ⟨w', hf⟩ := FusionEngine.run_faithful hg hrun
  have hn := hf.numQubits
  obtain ⟨generated, hgenerated⟩ := exists_generate (hn ▸ hwidth) (hn ▸ hf.inside_gates)
  obtain ⟨slots, hlowered, -, -⟩ := generate_spec hgenerated
  obtain ⟨c, hc⟩ : ∃ c, (Pipeline.mk engine Interpreter.backend).lower fused.numQubits generated
      report = .ok c :=
    exists_lower hf.sound.wellFormed_gates hlowered report
  refine ⟨c, ?_⟩
  unfold compile
  dsimp only
  rw [hrun]
  dsimp only [bind, Except.bind]
  rw [hgenerated]
  dsimp only
  rw [hc]
  rfl

lemma faithful_empty {name : String} {start : Circuit α} (h : Circuit.empty name n = .ok start) :
    Faithful n start.graph (fun _ => []) [] := by
  unfold Circuit.empty at h
  obtain ⟨g, hempty, h⟩ := bind_eq_ok.mp h
  obtain rfl := Except.ok.inj h
  exact Faithful.start hempty

lemma faithful_foldlM {gates accepted : List (Gate α)} (hgates : ∀ gate ∈ gates, gate.Regular)
    {start circuit : Circuit α} {w : Qubit → List Nat} (hg : Faithful n start.graph w accepted)
    (h : gates.foldlM Circuit.add start = .ok circuit) :
    ∃ w, Faithful n circuit.graph w (accepted ++ gates) := by
  induction gates generalizing start accepted w with
  | nil =>
    obtain rfl := Except.ok.inj h
    exact ⟨w, by rwa [List.append_nil]⟩
  | cons gate gates ih =>
    rw [List.foldlM_cons] at h
    obtain ⟨next, hstep, h⟩ := bind_eq_ok.mp h
    unfold Circuit.add at hstep
    obtain ⟨⟨id, g'⟩, hadd, hstep⟩ := bind_eq_ok.mp hstep
    obtain rfl := Except.ok.inj hstep
    obtain ⟨w', hg'⟩ := hg.add (hgates gate (by simp)) hadd
    rw [List.append_cons]
    exact ih (fun k hk => hgates k (by simp [hk])) hg' h

/-- A compiled graph leaves the amplitudes that its fused gates leave one after another. -/
lemma runNamed_fused {w : Qubit → List Nat} {accepted : List (Gate α)}
    (hg : Faithful n g w accepted)
    (hc : (Pipeline.mk engine Interpreter.backend).compile g = .ok (c, fused))
    {named : String → Option α} (hb : ∀ gate ∈ accepted, Binds named gate.symbols)
    {amplitudes : Array (Cartesian α)} (hsize : amplitudes.size = 2 ^ n) :
    ∃ t : Statevector α, c.runNamed amplitudes named = .ok t.amplitudes ∧ t.WellFormed ∧
      t.numQubits = n ∧
      t.amp = applyAll (valuation named) fused.gates (Statevector.mk amplitudes n).amp := by
  obtain ⟨⟨report, hrun⟩, hn, slots, hkernels, hstem, hprepares⟩ := compile_spec hc
  obtain ⟨w', hf⟩ := FusionEngine.run_faithful hg hrun
  rw [hf.numQubits] at hn hkernels
  have hslots : ∀ s ∈ slots, Binds named s.expr.symbols :=
    (binds_slots_iff hkernels hstem).mpr (hf.binds_gates hb)
  have hwidth : amplitudes.size = 2 ^ c.numQubits := hn ▸ hsize
  obtain ⟨params, hfilled, hnamed⟩ := CompiledCircuit.runNamed_eq hprepares hslots hwidth
  have hs : (Statevector.mk amplitudes n).WellFormed := hsize
  obtain ⟨t, hkernel, hwf, hnum, hamp⟩ := CompiledCircuit.foldlM_applyKernel hfilled
    hf.sound.wellFormed_gates hkernels hs rfl
  rw [hn] at hnamed
  exact ⟨t, hnamed.trans hkernel, hwf, hnum, hamp⟩

/-- Fusion kept their meaning, so these are the amplitudes that the accepted gates leave. -/
theorem runNamed_spec {w : Qubit → List Nat} {accepted : List (Gate α)}
    (hg : Faithful n g w accepted)
    (hc : (Pipeline.mk engine Interpreter.backend).compile g = .ok (c, fused))
    {named : String → Option α} (hb : ∀ gate ∈ accepted, Binds named gate.symbols)
    (hd : totalDegree accepted < 2 ^ 32) {amplitudes : Array (Cartesian α)}
    (hsize : amplitudes.size = 2 ^ n) :
    ∃ t : Statevector α, c.runNamed amplitudes named = .ok t.amplitudes ∧ t.WellFormed ∧
      t.numQubits = n ∧
      t.amp = applyAll (valuation named) accepted (Statevector.mk amplitudes n).amp := by
  obtain ⟨⟨report, hrun⟩, -⟩ := compile_spec hc
  obtain ⟨w', hf⟩ := FusionEngine.run_faithful hg hrun
  obtain ⟨t, hnamed, hwf, hnum, hamp⟩ := runNamed_fused hg hc hb hsize
  exact ⟨t, hnamed, hwf, hnum, hamp.trans (hf.meaning hd _ _)⟩

section Sample

/-- A rotation of qubit zero by an angle that is known when the circuit runs. -/
noncomputable def rotation : Gate ℝ := ⟨"rx", [0], (Quad.rotateX (.symbol "theta")).single⟩

lemma standard_rotation : Gate.standard (α := ℝ) (.rx (.symbol "theta")) [0] = .ok rotation := rfl

/-- A circuit of two rotations compiles. -/
lemma compile_rotations : ∃ (start circuit : Circuit ℝ) (fused : CircuitGraph ℝ)
    (c : CompiledCircuit ℝ), Circuit.empty "rotations" 1 = .ok start ∧
      [rotation, rotation].foldlM Circuit.add start = .ok circuit ∧
      (Pipeline.mk ⟨⟨2, ⟨64, 0⟩⟩, .naive ⟨64, 0⟩⟩ Interpreter.backend).compile circuit.graph =
        .ok (c, fused) := by
  obtain ⟨start, hstart, circuit, hcircuit⟩ : ∃ start : Circuit ℝ,
      Circuit.empty "rotations" 1 = .ok start ∧
        ∃ circuit, [rotation, rotation].foldlM Circuit.add start = .ok circuit :=
    ⟨_, rfl, _, rfl⟩
  have hgates : ∀ gate ∈ [rotation, rotation], gate.Regular := by
    intro gate hgate
    obtain rfl : gate = rotation := by simpa using hgate
    exact Gate.regular_of_standard standard_rotation
  obtain ⟨w, hg⟩ := faithful_foldlM hgates (faithful_empty hstart) hcircuit
  obtain ⟨report, fused, hrun, -⟩ := FusionEngine.run_spec (e := ⟨⟨2, ⟨64, 0⟩⟩, .naive ⟨64, 0⟩⟩)
    (FusionEngine.lawful_naive _) (by decide) hg.sound
  obtain ⟨c, hc⟩ := exists_compile hg (by decide) hrun
  exact ⟨start, circuit, fused, c, hstart, hcircuit, hc⟩

end Sample

end Pipeline
end GateFusion
