import GateFusion.Proofs.Matrix.Extend
import GateFusion.Gate.Compose

/-!
# Composition of gates

A composed gate acts as its two gates do in succession, whatever qubits they share. It acts on the
qubits of both, and mentions only symbols of theirs.
-/

namespace GateFusion.Gate

section Union
variable {α : Type} {earlier later : Gate α}

lemma mem_insertQubit {q r : Qubit} {qs : List Qubit} :
    r ∈ insertQubit q qs ↔ r = q ∨ r ∈ qs := by
  induction qs with
  | nil => simp [insertQubit]
  | cons p qs ih =>
    rw [insertQubit]
    split
    · rw [List.mem_cons]
    · split
      · rename_i hqp
        rw [hqp, List.mem_cons]
        tauto
      · rw [List.mem_cons, ih, List.mem_cons]
        tauto

lemma pairwise_insertQubit {q : Qubit} {qs : List Qubit} (h : qs.Pairwise (· < ·)) :
    (insertQubit q qs).Pairwise (· < ·) := by
  induction qs with
  | nil => exact List.pairwise_singleton _ _
  | cons p qs ih =>
    obtain ⟨hp, hqs⟩ := List.pairwise_cons.mp h
    rw [insertQubit]
    split
    · rename_i hqp
      refine List.pairwise_cons.mpr ⟨fun r hr => ?_, h⟩
      rcases List.mem_cons.mp hr with rfl | hr
      · exact hqp
      · exact hqp.trans (hp r hr)
    · split
      · exact h
      · refine List.pairwise_cons.mpr ⟨fun r hr => ?_, ih hqs⟩
        rcases mem_insertQubit.mp hr with rfl | hr
        · exact Nat.lt_of_le_of_ne (Nat.le_of_not_lt ‹_›) (Ne.symm ‹_›)
        · exact hp r hr

lemma mem_unionQubits [Scalar α] {q : Qubit} :
    q ∈ unionQubits earlier later ↔ q ∈ earlier.qubits ∨ q ∈ later.qubits := by
  rw [unionQubits, ← List.mem_append]
  induction earlier.qubits ++ later.qubits with
  | nil => rfl
  | cons p qs ih => rw [List.foldr_cons, mem_insertQubit, ih, List.mem_cons]

lemma nodup_unionQubits [Scalar α] : (unionQubits earlier later).Nodup := by
  have h : (unionQubits earlier later).Pairwise (· < ·) := by
    rw [unionQubits]
    induction earlier.qubits ++ later.qubits with
    | nil => exact .nil
    | cons p qs ih => exact pairwise_insertQubit ih
  exact h.imp Nat.ne_of_lt

/-- The qubits that a composed gate acts on. -/
def composedQubits [Scalar α] (earlier later : Gate α) : List Qubit :=
  if sameQubits earlier later then earlier.qubits else unionQubits earlier later

lemma composedQubits_spec [Scalar α] {earlier : Gate α} (he : earlier.qubits.Nodup)
    (later : Gate α) :
    (composedQubits earlier later).Nodup ∧ ∀ q, q ∈ composedQubits earlier later ↔
      q ∈ earlier.qubits ∨ q ∈ later.qubits := by
  unfold composedQubits
  split
  · rename_i hsame
    rw [sameQubits, Bool.and_eq_true, beq_iff_eq, List.all_eq_true] at hsame
    refine ⟨he, fun q => (or_iff_left_of_imp fun hq => ?_).symm⟩
    simpa [actsOn] using hsame.2 q hq
  · exact ⟨nodup_unionQubits, fun q => mem_unionQubits⟩

end Union

section Success
variable {α : Type} [Scalar α] {earlier later : Gate α}

lemma compose_eq (earlier later : Gate α) : compose earlier later = (do
    checkIndexWidth (composedQubits earlier later).length "gate fusion"
    let first ← earlier.matrixOver (composedQubits earlier later)
    let second ← later.matrixOver (composedQubits earlier later)
    return ⟨"fused", composedQubits earlier later, ← second.multiply first⟩) := rfl

omit [Scalar α] in
lemma entryCount_eq_ok {k : Nat} (hk : k ≤ 31) :
    GateMatrix.entryCount (α := α) k = .ok (Nat.pow 2 (2 * k)) := by
  have hwidth : k ≤ maxIndexWidth := hk.trans (by decide)
  unfold GateMatrix.entryCount
  rw [checkIndexWidth_eq_ok.mpr hwidth, if_neg (by omega)]
  rfl

/-- Extending to at most 31 qubits succeeds. -/
lemma extend_eq_ok {m : GateMatrix α} {own target : List Qubit} (hm : m.WellFormed)
    (hk : m.numQubits = own.length) (hsub : ∀ q ∈ own, q ∈ target) (hlen : target.length ≤ 31) :
    m.extend own target = .ok (.ofFn target.length (m.extendedEntry own target)) := by
  have hwidth : target.length ≤ maxIndexWidth := hlen.trans (by decide)
  rw [GateMatrix.extend_eq hm hk hsub, checkIndexWidth_eq_ok.mpr hwidth, entryCount_eq_ok hlen]
  rfl

lemma matrixOver_eq_ok {g : Gate α} (hg : g.WellFormed) {qs : List Qubit}
    (hsub : ∀ q ∈ g.qubits, q ∈ qs) (hlen : qs.length ≤ 31) :
    ∃ m, g.matrixOver qs = .ok m ∧ m.numQubits = qs.length ∧ m.WellFormed := by
  unfold matrixOver
  split
  · rename_i hqs
    exact ⟨g.matrix, rfl, hqs ▸ hg.size, hg.entries⟩
  · exact ⟨_, extend_eq_ok hg.entries hg.size hsub hlen, rfl, GateMatrix.wellFormed_ofFn⟩

lemma numQubits_of_matrixOver {g : Gate α} (hg : g.WellFormed) {qs : List Qubit}
    (hsub : ∀ q ∈ g.qubits, q ∈ qs) {m : GateMatrix α} (h : g.matrixOver qs = .ok m) :
    m.numQubits = qs.length := by
  unfold matrixOver at h
  split at h
  · rename_i hqs
    obtain rfl := Except.ok.inj h
    rw [hqs]
    exact hg.size
  · rw [GateMatrix.extend_eq hg.entries hg.size hsub] at h
    obtain ⟨-, -, h⟩ := bind_eq_ok.mp h
    obtain ⟨-, -, h⟩ := bind_eq_ok.mp h
    obtain rfl := Except.ok.inj h
    rfl

/-- Gates that act on at most 31 qubits together can be composed. -/
theorem compose_eq_ok (he : earlier.WellFormed) (hl : later.WellFormed)
    (hlen : (composedQubits earlier later).length ≤ 31) : ∃ fused,
      compose earlier later = .ok fused ∧ fused.WellFormed ∧
        fused.qubits = composedQubits earlier later := by
  obtain ⟨hn, hmem⟩ := composedQubits_spec he.nodup later
  obtain ⟨first, hfirst, hk₁, -⟩ :=
    matrixOver_eq_ok he (fun q hq => (hmem q).mpr (Or.inl hq)) hlen
  obtain ⟨second, hsecond, hk₂, -⟩ :=
    matrixOver_eq_ok hl (fun q hq => (hmem q).mpr (Or.inr hq)) hlen
  have hwidth : (composedQubits earlier later).length ≤ maxIndexWidth := hlen.trans (by decide)
  have hproduct := GateMatrix.multiply_eq_ok.mpr ⟨hk₂.trans hk₁.symm, rfl⟩
  refine ⟨⟨"fused", composedQubits earlier later,
    .ofFn second.numQubits (GateMatrix.productEntry second first)⟩, ?_,
    ⟨hn, hwidth, hk₂, GateMatrix.wellFormed_ofFn⟩, rfl⟩
  rw [compose_eq, checkIndexWidth_eq_ok.mpr hwidth, hfirst, hsecond]
  dsimp only [bind, Except.bind]
  rw [hproduct]
  rfl

/-- Whatever composes is well formed, on the qubits of both gates. -/
theorem wellFormed_of_compose {fused : Gate α} (he : earlier.WellFormed) (hl : later.WellFormed)
    (h : compose earlier later = .ok fused) : fused.WellFormed ∧
      ∀ q, q ∈ fused.qubits ↔ q ∈ earlier.qubits ∨ q ∈ later.qubits := by
  obtain ⟨hn, hmem⟩ := composedQubits_spec he.nodup later
  rw [compose_eq] at h
  generalize composedQubits earlier later = qs at hn hmem h
  obtain ⟨_, hwidth, h⟩ := bind_eq_ok.mp h
  obtain ⟨first, hfirst, h⟩ := bind_eq_ok.mp h
  obtain ⟨second, hsecond, h⟩ := bind_eq_ok.mp h
  obtain ⟨m, hm, h⟩ := bind_eq_ok.mp h
  obtain rfl := Except.ok.inj h
  have hk := numQubits_of_matrixOver hl (fun q hq => (hmem q).mpr (Or.inr hq)) hsecond
  obtain ⟨-, rfl⟩ := GateMatrix.multiply_eq_ok.mp hm
  exact ⟨⟨hn, checkIndexWidth_eq_ok.mp hwidth, hk, GateMatrix.wellFormed_ofFn⟩, hmem⟩

end Success

variable {α : Type} [Exact α]

/-- A well-formed gate whose symbolic entries are well formed. -/
structure Regular (g : Gate α) : Prop extends g.WellFormed where
  regular : g.matrix.Regular

/-- The largest exponent of all entries. -/
def degree {α : Type} (g : Gate α) : Nat := g.matrix.degree

/-- The action of a gate on amplitudes, with a number for every symbol. -/
def apply (v : String → α) (g : Gate α) (amp : Nat → Cartesian α) : Nat → Cartesian α :=
  act g.qubits (g.matrix.value v) amp

/-- The matrix over more qubits acts as the gate does. -/
lemma matrixOver_spec {g : Gate α} (hg : g.Regular) {qs : List Qubit} (hn : qs.Nodup)
    (hsub : ∀ q ∈ g.qubits, q ∈ qs) {m : GateMatrix α} (h : g.matrixOver qs = .ok m) :
    m.numQubits = qs.length ∧ m.Regular ∧ m.degree ≤ g.degree ∧
      (∀ v amp, act qs (m.value v) amp = g.apply v amp) ∧
      ∀ n ∈ m.symbols, n ∈ g.symbols := by
  unfold matrixOver at h
  split at h
  · rename_i hqs
    obtain rfl := Except.ok.inj h
    subst hqs
    exact ⟨hg.size, hg.regular, le_rfl, fun v amp => rfl, fun n hn => hn⟩
  · rw [GateMatrix.extend_eq hg.entries hg.size hsub] at h
    obtain ⟨-, -, h⟩ := bind_eq_ok.mp h
    obtain ⟨-, -, h⟩ := bind_eq_ok.mp h
    obtain rfl := Except.ok.inj h
    refine ⟨rfl, GateMatrix.forall_mem_ofFn fun r c _ _ => ?_,
      GateMatrix.degree_le_iff.mpr (GateMatrix.forall_mem_ofFn fun r c _ _ => ?_), fun v amp => ?_,
      fun n hn => GateMatrix.mem_symbols_extended hn⟩
    · rcases g.matrix.extendedEntry_cases g.qubits qs r c with hzero | ⟨r', c', hentry⟩
      · rw [hzero]
        exact .zero
      · rw [hentry]
        exact hg.regular.entry r' c'
    · rcases g.matrix.extendedEntry_cases g.qubits qs r c with hzero | ⟨r', c', hentry⟩
      · rw [hzero]
        exact Nat.zero_le _
      · rw [hentry]
        exact g.matrix.degree_entry_le r' c'
    · rw [apply, ← GateMatrix.act_extendedEntry hsub hg.nodup hn]
      refine act_congr _ fun r c hr hc => ?_
      rw [GateMatrix.value_ofFn hr hc]

/-- Composition is acting one after the other, as long as no exponent can wrap around. -/
theorem compose_spec {earlier later fused : Gate α} (he : earlier.Regular) (hl : later.Regular)
    (h : compose earlier later = .ok fused) : fused.Regular ∧
      (∀ q, q ∈ fused.qubits ↔ q ∈ earlier.qubits ∨ q ∈ later.qubits) ∧
      fused.degree ≤ earlier.degree + later.degree ∧
      (earlier.degree + later.degree < 2 ^ 32 →
        ∀ v amp, fused.apply v amp = later.apply v (earlier.apply v amp)) ∧
      ∀ n ∈ fused.symbols, n ∈ earlier.symbols ∨ n ∈ later.symbols := by
  obtain ⟨hn, hmem⟩ := composedQubits_spec he.nodup later
  rw [compose_eq] at h
  generalize composedQubits earlier later = qs at hn hmem h
  obtain ⟨_, hwidth, h⟩ := bind_eq_ok.mp h
  obtain ⟨first, hfirst, h⟩ := bind_eq_ok.mp h
  obtain ⟨second, hsecond, h⟩ := bind_eq_ok.mp h
  obtain ⟨m, hm, h⟩ := bind_eq_ok.mp h
  obtain rfl := Except.ok.inj h
  obtain ⟨hk₁, hr₁, hd₁, hact₁, hsym₁⟩ := matrixOver_spec he hn
    (fun q hq => (hmem q).mpr (Or.inl hq)) hfirst
  obtain ⟨hk₂, hr₂, hd₂, hact₂, hsym₂⟩ := matrixOver_spec hl hn
    (fun q hq => (hmem q).mpr (Or.inr hq)) hsecond
  obtain ⟨-, hk, hwf⟩ := GateMatrix.shape_of_multiply hm
  have hdegree : m.degree ≤ earlier.degree + later.degree := by
    have hmul := GateMatrix.degree_multiply_le hr₂ hr₁ hm
    omega
  refine ⟨⟨⟨hn, checkIndexWidth_eq_ok.mp hwidth, hk.trans hk₂, hwf⟩, hr₂.multiply hr₁ hm⟩, hmem,
    hdegree, fun hd v amp => ?_, fun n hn => ?_⟩
  · rw [← hact₁, ← hact₂, act_act hn]
    refine act_congr _ fun r c hr hc => ?_
    rw [GateMatrix.value_multiply hr₂ hr₁ (by omega) hm v (by rwa [hk₂]) (by rwa [hk₂]), hk₂]
  · exact (GateMatrix.mem_symbols_multiply hm n hn).elim (fun h => Or.inr (hsym₂ n h))
      fun h => Or.inl (hsym₁ n h)

end GateFusion.Gate
