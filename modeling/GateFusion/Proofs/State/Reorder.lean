import GateFusion.Proofs.State.Apply

/-!
# Sequences of gates

Applying gates one after another leaves the amplitudes of their operators in succession. Which of
two gates on different qubits comes first does not matter; so two sequences that agree on every
qubit, gate by gate, leave the same state.
-/

namespace GateFusion
variable {α : Type} [Exact α]

/-- The action of gates one after another. -/
def applyAll (v : String → α) (gs : List (Gate α)) (amp : Nat → Cartesian α) : Nat → Cartesian α :=
  gs.foldl (fun amp g => g.apply v amp) amp

section Sequence
variable (v : String → α) (amp : Nat → Cartesian α)

@[simp] lemma applyAll_nil : applyAll v [] amp = amp := rfl

@[simp] lemma applyAll_cons (g : Gate α) (gs : List (Gate α)) :
    applyAll v (g :: gs) amp = applyAll v gs (g.apply v amp) := rfl

lemma applyAll_append (gs hs : List (Gate α)) :
    applyAll v (gs ++ hs) amp = applyAll v hs (applyAll v gs amp) :=
  List.foldl_append

/-- A gate moves to the front past gates on other qubits. -/
lemma applyAll_move {g : Gate α} (hg : g.qubits.Nodup) {gs : List (Gate α)}
    (hgs : ∀ h ∈ gs, h.qubits.Nodup ∧ ∀ q ∈ h.qubits, q ∉ g.qubits) :
    g.apply v (applyAll v gs amp) = applyAll v gs (g.apply v amp) := by
  induction gs generalizing amp with
  | nil => rfl
  | cons h gs ih =>
    obtain ⟨hn, hd⟩ := hgs h (by simp)
    rw [applyAll_cons, ih _ fun k hk => hgs k (by simp [hk]), applyAll_cons]
    congr 1
    exact act_comm hg _ _ amp hn fun q hq hq' => hd q hq' hq

omit [Exact α] in
lemma filter_of_mem {g : Gate α} {q : Qubit} (hq : q ∈ g.qubits) (gs : List (Gate α)) :
    (g :: gs).filter (·.actsOn q) = g :: gs.filter (·.actsOn q) := by
  simp [Gate.actsOn, hq]

omit [Exact α] in
lemma filter_of_notMem {g : Gate α} {q : Qubit} (hq : q ∉ g.qubits) (gs : List (Gate α)) :
    (g :: gs).filter (·.actsOn q) = gs.filter (·.actsOn q) := by
  simp [Gate.actsOn, hq]

/-- Sequences of gates that agree on every qubit act alike. -/
theorem applyAll_eq_of_filter {gs hs : List (Gate α)}
    (hgs : ∀ g ∈ gs, g.qubits.Nodup ∧ g.qubits ≠ [])
    (hhs : ∀ h ∈ hs, h.qubits.Nodup ∧ h.qubits ≠ [])
    (h : ∀ q, gs.filter (·.actsOn q) = hs.filter (·.actsOn q)) :
    applyAll v gs amp = applyAll v hs amp := by
  induction gs generalizing hs amp with
  | nil =>
    cases hs with
    | nil => rfl
    | cons k hs =>
      obtain ⟨q, hq⟩ := List.exists_mem_of_ne_nil _ (hhs k (by simp)).2
      have hq' := h q
      simp [Gate.actsOn, hq] at hq'
  | cons g gs ih =>
    obtain ⟨hn, hne⟩ := hgs g (by simp)
    obtain ⟨q₀, hq₀⟩ := List.exists_mem_of_ne_nil _ hne
    have hfirst : hs.filter (·.actsOn q₀) = g :: gs.filter (·.actsOn q₀) := by
      rw [← h q₀, filter_of_mem hq₀]
    obtain ⟨front, back, rfl, hfront, -, -⟩ := List.filter_eq_cons_iff.mp hfirst
    -- no gate in front shares a qubit with `g`: the first such gate on a qubit would be `g` itself
    have hdisjoint : ∀ q ∈ g.qubits, front.filter (·.actsOn q) = [] := by
      intro q hq
      have hq' := h q
      rw [filter_of_mem hq, List.filter_append] at hq'
      cases hf : front.filter (·.actsOn q) with
      | nil => rfl
      | cons x rest =>
        rw [hf, List.cons_append, List.cons.injEq] at hq'
        have hx : x ∈ front := List.mem_of_mem_filter (hf ▸ List.mem_cons_self)
        have hnot := hq'.1 ▸ hfront x hx
        simp [Gate.actsOn, hq₀] at hnot
    have hmove : applyAll v (front ++ g :: back) amp =
        applyAll v (front ++ back) (g.apply v amp) := by
      rw [applyAll_append, applyAll_cons, applyAll_append, applyAll_move v amp hn]
      intro k hk
      refine ⟨(hhs k (by simp [hk])).1, fun q hq hqg => ?_⟩
      have hnil := List.filter_eq_nil_iff.mp (hdisjoint q hqg) k hk
      simp [Gate.actsOn, hq] at hnil
    rw [applyAll_cons, hmove]
    refine ih _ (fun k hk => hgs k (by simp [hk])) (fun k hk => hhs k ?_) fun q => ?_
    · simp only [List.mem_append, List.mem_cons] at hk ⊢
      tauto
    · have hq' := h q
      rw [List.filter_append] at hq' ⊢
      by_cases hq : q ∈ g.qubits
      · rw [filter_of_mem hq, filter_of_mem hq, hdisjoint q hq, List.nil_append,
          List.cons.injEq] at hq'
        rw [hdisjoint q hq, List.nil_append, hq'.2]
      · rwa [filter_of_notMem hq, filter_of_notMem hq] at hq'

end Sequence

namespace Statevector
variable {s : Statevector α} {lookup : String → Option α}

/-- A gate is applied exactly if the state has its qubits and its symbols are bound. -/
lemma applyGate_eq_ok {g : Gate α} {t : Statevector α} : s.applyGate g lookup = .ok t ↔
    (∀ q ∈ g.qubits, q < s.numQubits) ∧ Binds lookup g.symbols ∧
      t = applyMatrix (g.matrix.entries.toList.map fun e => e.value (valuation lookup))
        g.qubits s := by
  have hinside : (∀ q ∈ g.qubits, q < s.numQubits) ↔
      g.qubits.find? (fun q => s.numQubits ≤ q) = none := by
    simp [List.find?_eq_none]
  unfold applyGate
  cases hfind : g.qubits.find? (fun q => s.numQubits ≤ q) with
  | some q =>
    rw [hinside, hfind]
    simp
  | none =>
    rw [hinside, and_iff_right hfind]
    cases heval : g.matrix.evaluate lookup with
    | none =>
      have hunbound : ¬ Binds lookup g.symbols := by
        intro hb
        simp [GateMatrix.evaluate_eq_some.mpr ⟨hb, rfl⟩] at heval
      simp [hunbound]
    | some matrix =>
      obtain ⟨hb, rfl⟩ := GateMatrix.evaluate_eq_some.mp heval
      have hsymbols : Binds lookup g.symbols := hb
      simp [hsymbols, eq_comm]

/-- A gate whose qubits the state has and whose symbols are bound can be applied. -/
theorem applyGate_spec (hs : s.WellFormed) {g : Gate α} (hg : g.WellFormed)
    (hq : ∀ q ∈ g.qubits, q < s.numQubits) (hb : Binds lookup g.symbols) :
    ∃ t, s.applyGate g lookup = .ok t ∧ t.WellFormed ∧ t.numQubits = s.numQubits ∧
      t.amp = g.apply (valuation lookup) s.amp := by
  obtain ⟨hwf, hamp⟩ := applyMatrix_spec hs hg.nodup hq hg.entries hg.size (valuation lookup)
  exact ⟨_, applyGate_eq_ok.mpr ⟨hq, hb, rfl⟩, hwf, rfl, hamp⟩

/-- Gates that can all be applied are applied one after another. -/
theorem applyGates_spec (hs : s.WellFormed) {gs : List (Gate α)} (hgs : ∀ g ∈ gs, g.WellFormed)
    (hq : ∀ g ∈ gs, ∀ q ∈ g.qubits, q < s.numQubits) (hb : ∀ g ∈ gs, Binds lookup g.symbols) :
    ∃ t, applyGates lookup gs s = (t, .ok ()) ∧ t.WellFormed ∧ t.numQubits = s.numQubits ∧
      t.amp = applyAll (valuation lookup) gs s.amp := by
  induction gs generalizing s with
  | nil => exact ⟨s, rfl, hs, rfl, rfl⟩
  | cons g gs ih =>
    obtain ⟨t, ht, hwf, hn, hamp⟩ :=
      applyGate_spec hs (hgs g (by simp)) (hq g (by simp)) (hb g (by simp))
    obtain ⟨u, hu, hwf', hn', hamp'⟩ := ih hwf (fun k hk => hgs k (by simp [hk]))
      (fun k hk q hkq => hn ▸ hq k (by simp [hk]) q hkq) fun k hk => hb k (by simp [hk])
    refine ⟨u, ?_, hwf', hn'.trans hn, by rw [hamp', hamp, applyAll_cons]⟩
    rw [applyGates, ht]
    exact hu

/-- Where gates have been applied, the state has their qubits and their symbols are bound. -/
theorem of_applyGates {gs : List (Gate α)} {t : Statevector α}
    (h : applyGates lookup gs s = (t, .ok ())) :
    (∀ g ∈ gs, ∀ q ∈ g.qubits, q < s.numQubits) ∧ ∀ g ∈ gs, Binds lookup g.symbols := by
  induction gs generalizing s with
  | nil => simp
  | cons g gs ih =>
    rw [applyGates] at h
    cases hg : s.applyGate g lookup with
    | error e => simp [hg] at h
    | ok u =>
      rw [hg] at h
      obtain ⟨hq, hb, rfl⟩ := applyGate_eq_ok.mp hg
      obtain ⟨hqs, hbs⟩ := ih h
      exact ⟨List.forall_mem_cons.mpr ⟨hq, hqs⟩, List.forall_mem_cons.mpr ⟨hb, hbs⟩⟩

end Statevector
end GateFusion
