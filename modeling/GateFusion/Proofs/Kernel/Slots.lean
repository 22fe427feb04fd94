import GateFusion.Proofs.Circuit.Reachable
import GateFusion.Proofs.Kernel.Buffer

/-!
# Slots and symbolic entries

The slots of generated kernels, read in the order of their numbers, are the symbolic entries of the
blocks in the order of kernel, row and column, and every kernel entry names the slot of its place.
-/

namespace GateFusion
variable {α : Type}

/-- A slot comes before another: in kernel order, in one kernel row by row, in one row column by
column. -/
def ParameterSlot.Before (s t : ParameterSlot α) : Prop :=
  s.kernel < t.kernel ∨
    s.kernel = t.kernel ∧ (s.row < t.row ∨ s.row = t.row ∧ s.col < t.col)

/-- The entry at the place of a slot is symbolic, with the expression of the slot. -/
def ParameterSlot.Reads (s : ParameterSlot α) (m : GateMatrix α) : Prop :=
  s.row < m.dim ∧ s.col < m.dim ∧ m.get? s.row s.col = some (.symbolic s.expr)

/-- The slots in buffer order. -/
def GeneratedKernels.slots (out : GeneratedKernels α) : List (ParameterSlot α) :=
  (out.preparation.map (·.slots)).getD []

lemma pairwise_zipIdx {β : Type} (xs : List β) (i : Nat) :
    (xs.zipIdx i).Pairwise fun x y => x.2 < y.2 := by
  have h := List.pairwise_lt_range' (s := i) (n := xs.length)
  rw [← List.zipIdx_map_snd] at h
  exact List.pairwise_map.mp h

lemma exists_getElem?_of_forall₂ {β γ : Type} {r : β → γ → Prop} {xs : List β} {ys : List γ}
    (h : List.Forall₂ r xs ys) {i : Nat} {x : β} (hx : xs[i]? = some x) :
    ∃ y, ys[i]? = some y ∧ r x y := by
  induction h generalizing i with
  | nil => simp at hx
  | cons hfirst _ ih =>
    cases i with
    | zero =>
      obtain rfl := Option.some.inj hx
      exact ⟨_, rfl, hfirst⟩
    | succ i => exact ih hx

namespace KernelSpec
variable {b : (BlockId × Block α) × Nat} {s : ParameterSlot α} {g : CircuitGraph α}
  {n : Nat} {slots : List (ParameterSlot α)} {spec : KernelSpec α}

/-- A place before another in a row-by-row list has a smaller row, or a smaller column. -/
lemma div_mod_lt {dim i j : Nat} (h : i < j) :
    i / dim < j / dim ∨ i / dim = j / dim ∧ i % dim < j % dim := by
  rcases Nat.lt_or_eq_of_le (Nat.div_le_div_right (c := dim) h.le) with hlt | heq
  · exact Or.inl hlt
  · have hi := Nat.div_add_mod i dim
    have hj := Nat.div_add_mod j dim
    rw [heq] at hi
    exact Or.inr ⟨heq, by omega⟩

lemma div_mod_place {dim r c : Nat} (hc : c < dim) :
    (r * dim + c) / dim = r ∧ (r * dim + c) % dim = c := by
  constructor
  · rw [Nat.mul_comm, Nat.mul_add_div (by omega), Nat.div_eq_of_lt hc, Nat.add_zero]
  · rw [Nat.mul_add_mod', Nat.mod_eq_of_lt hc]

lemma kernel_of_mem_slotsOf (h : s ∈ slotsOf b) : s.kernel = b.2 := by
  obtain ⟨e, -, hslot⟩ := List.mem_filterMap.mp h
  exact (slot?_eq_some.mp hslot).2.1

lemma pairwise_slotsOf (b : (BlockId × Block α) × Nat) :
    (slotsOf b).Pairwise ParameterSlot.Before := by
  refine List.pairwise_filterMap.mpr ((pairwise_zipIdx _ 0).imp fun {e e'} h s hs t ht => ?_)
  obtain ⟨-, hkernel, hrow, hcol⟩ := slot?_eq_some.mp hs
  obtain ⟨-, hkernel', hrow', hcol'⟩ := slot?_eq_some.mp ht
  refine Or.inr ⟨hkernel.trans hkernel'.symm, ?_⟩
  rw [hrow, hcol, hrow', hcol']
  exact div_mod_lt h

theorem pairwise_graphSlots (g : CircuitGraph α) :
    (graphSlots g).Pairwise ParameterSlot.Before := by
  refine List.pairwise_flatMap.mpr ⟨fun b _ => pairwise_slotsOf b, ?_⟩
  refine (pairwise_zipIdx _ 0).imp fun {b b'} h s hs t ht => Or.inl ?_
  rw [kernel_of_mem_slotsOf hs, kernel_of_mem_slotsOf ht]
  exact h

lemma nodup_graphSlots (g : CircuitGraph α) : (graphSlots g).Nodup := by
  refine (pairwise_graphSlots g).imp fun {s t} h heq => ?_
  subst heq
  unfold ParameterSlot.Before at h
  omega

lemma mem_slotsOf (hb : b.1.2.gate.WellFormed) :
    s ∈ slotsOf b ↔ s.kernel = b.2 ∧ s.Reads b.1.2.gate.matrix := by
  have hsize : b.1.2.gate.matrix.entries.size =
      b.1.2.gate.matrix.dim * b.1.2.gate.matrix.dim := hb.entries
  set m := b.1.2.gate.matrix with hm
  have hpos : 0 < m.dim := Nat.two_pow_pos _
  constructor
  · intro h
    obtain ⟨⟨e, i⟩, he, hslot⟩ := List.mem_filterMap.mp h
    obtain ⟨hentry, hkernel, hrow, hcol⟩ := slot?_eq_some.mp hslot
    have hget := List.mem_zipIdx_iff_getElem?.mp he
    rw [← hm] at hrow hcol hget
    dsimp only at hentry hrow hcol hget
    have hi : i < m.dim * m.dim := by
      rw [← hsize, ← Array.length_toList]
      exact (List.getElem?_eq_some_iff.mp hget).1
    refine ⟨hkernel, ?_, ?_, ?_⟩
    · rw [hrow]
      exact Nat.div_lt_of_lt_mul hi
    · rw [hcol]
      exact Nat.mod_lt _ hpos
    · rw [GateMatrix.get?, hrow, hcol, Nat.div_add_mod', ← Array.getElem?_toList, hget, hentry]
  · rintro ⟨hkernel, hrow, hcol, hget⟩
    refine List.mem_filterMap.mpr ⟨(.symbolic s.expr, s.row * m.dim + s.col), ?_, ?_⟩
    · rw [List.mem_zipIdx_iff_getElem?, Array.getElem?_toList]
      exact hget
    · obtain ⟨hdiv, hmod⟩ := div_mod_place (r := s.row) hcol
      exact slot?_eq_some.mpr ⟨rfl, hkernel, hdiv.symm, hmod.symm⟩

/-- The slots of a graph are the symbolic entries of its blocks. -/
lemma mem_graphSlots (hg : ∀ b ∈ g.blocks, b.2.gate.WellFormed) :
    s ∈ graphSlots g ↔ ∃ id b, g.blocks[s.kernel]? = some (id, b) ∧ s.Reads b.gate.matrix := by
  rw [graphSlots, List.mem_flatMap]
  constructor
  · rintro ⟨⟨⟨id, b⟩, i⟩, hb, hs⟩
    have hget := List.mem_zipIdx_iff_getElem?.mp hb
    obtain ⟨rfl, hreads⟩ := (mem_slotsOf (hg _ (List.mem_of_getElem? hget))).mp hs
    exact ⟨id, b, hget, hreads⟩
  · rintro ⟨id, b, hget, hreads⟩
    refine ⟨((id, b), s.kernel), List.mem_zipIdx_iff_getElem?.mpr hget, ?_⟩
    exact (mem_slotsOf (hg _ (List.mem_of_getElem? hget))).mpr ⟨rfl, hreads⟩

/-- A kernel has an entry wherever the matrix of its block has one. -/
lemma ComesFrom.entry? (h : ComesFrom n slots b spec) (hb : b.1.2.gate.WellFormed) {r c : Nat}
    {e : Entry α} (he : b.1.2.gate.matrix.get? r c = some e) :
    ∃ k, spec.entry? r c = some k ∧ Places slots b.2 spec.dim (e, r * spec.dim + c) k := by
  have hdim := h.lowered.dim_matrix hb
  have hzip : b.1.2.gate.matrix.entries.toList.zipIdx[r * spec.dim + c]? =
      some (e, r * spec.dim + c) := by
    rw [← hdim, List.getElem?_zipIdx, Array.getElem?_toList, Nat.zero_add]
    exact congrArg (Option.map _) he
  obtain ⟨k, hk, hplaces⟩ := exists_getElem?_of_forall₂ h.entries hzip
  rw [Array.getElem?_toList] at hk
  exact ⟨k, hk, hdim ▸ hplaces⟩

/-- A kernel is that of a block, at its place in execution order. -/
structure IsOf (k : KernelSpec α) (n i : Nat) (name : BlockId) (b : Block α) : Prop where
  id : k.id = i
  block : k.block = name
  qubits : k.qubits = b.gate.qubits
  origins : k.origins = b.origins
  indexing : Indexing.ofQubits (α := α) b.gate.qubits n = .ok k.indexing
  dim : k.dim = b.gate.matrix.dim
  size : k.matrix.size = k.dim * k.dim
  numeric : ∀ r c z, b.gate.matrix.get? r c = some (.numeric z) →
    k.entry? r c = some (.constant z)

lemma ComesFrom.isOf {slots : List (ParameterSlot α)} {i : Nat} {id : BlockId} {b : Block α}
    {k : KernelSpec α} (h : ComesFrom n slots ((id, b), i) k) (hb : b.gate.WellFormed) :
    k.IsOf n i id b := by
  have hdim := h.lowered.dim_matrix hb
  refine ⟨h.id, h.block, h.qubits, h.origins, h.indexing, hdim.symm, h.lowered.size_eq hb, ?_⟩
  intro r c z hz
  obtain ⟨e, he, hplaces⟩ := h.entry? hb hz
  cases hplaces with
  | constant => exact he

end KernelSpec

/-- The parameters of a preparation are the symbols of its slots, and values for them suffice. -/
structure Preparation.Sufficient [Scalar α] (p : Preparation α) : Prop where
  ascending : p.parameters.Pairwise (· < ·)
  mem_parameters : ∀ name, name ∈ p.parameters ↔ ∃ s ∈ p.slots, name ∈ s.expr.symbols
  prepares : ∀ values, values.length = p.parameters.length → ∃ buffer,
    p.prepare values = .ok buffer

/-- The kernels of a graph are those of its blocks, and slots and symbolic entries correspond one
to one. -/
structure GeneratedKernels.Tabulates [Scalar α] (out : GeneratedKernels α) (n : Nat)
    (g : CircuitGraph α) : Prop where
  length : out.kernels.length = g.blocks.length
  kernel : ∀ i id b, g.blocks[i]? = some (id, b) →
    ∃ k : KernelSpec α, out.kernels[i]? = some k ∧ k.IsOf n i id b
  ascending : out.slots.Pairwise ParameterSlot.Before
  mem_slots : ∀ s, s ∈ out.slots ↔
    ∃ id b, g.blocks[s.kernel]? = some (id, b) ∧ s.Reads b.gate.matrix
  entry : ∀ (j : Nat) (s : ParameterSlot α), out.slots[j]? = some s → ∃ k : KernelSpec α,
    out.kernels[s.kernel]? = some k ∧ k.entry? s.row s.col = some (.parameter j)
  preparation : out.preparation = none ↔ out.slots = []
  sufficient : ∀ p, out.preparation = some p → p.Sufficient

section Generated
variable [Scalar α] {n m : Nat} {g g₀ : CircuitGraph α} {out : GeneratedKernels α}

lemma Preparation.sufficient_ofParameters (slots : List (ParameterSlot α)) :
    (Preparation.ofParameters (slots.flatMap fun s => s.expr.symbols) slots).Sufficient := by
  refine ⟨NameSet.pairwise_ofList _, fun name => ?_, fun values hvalues => ?_⟩
  · exact NameSet.mem_ofList.trans List.mem_flatMap
  · have hfills := fillsBuffer_of_length hvalues (List.length_replicate (a := (0 : α))).ge
    obtain ⟨buffer, hbuffer⟩ := hfills.succeeds.mpr
      fun s hs n hn => List.mem_flatMap.mpr ⟨s, hs, hn⟩
    exact ⟨buffer, prepare_eq_ok.mpr hbuffer⟩

namespace KernelSpec

/-- What a preparation holds are the slots of all blocks, and there is none without slots. -/
lemma slots_eq_graphSlots (h : generate n g = .ok out) : out.slots = graphSlots g := by
  rw [GeneratedKernels.slots, (generate_comesFrom h).2]
  split
  · rename_i hempty
    exact (List.isEmpty_iff.mp hempty).symm
  · rfl

lemma exists_comesFrom (h : generate n g = .ok out) {i : Nat} {id : BlockId} {b : Block α}
    (hi : g.blocks[i]? = some (id, b)) : ∃ k, out.kernels[i]? = some k ∧
      ComesFrom n (graphSlots g) ((id, b), i) k := by
  refine exists_getElem?_of_forall₂ (generate_comesFrom h).1 ?_
  rw [List.getElem?_zipIdx, hi, Option.map_some, Nat.zero_add]

/-- The entry at the place of a slot names a slot with that place, and there is no other. -/
lemma exists_entry_of_slot (hg : ∀ b ∈ g.blocks, b.2.gate.WellFormed) (h : generate n g = .ok out)
    {j : Nat} {s : ParameterSlot α} (hj : (graphSlots g)[j]? = some s) : ∃ k : KernelSpec α,
      out.kernels[s.kernel]? = some k ∧ k.entry? s.row s.col = some (.parameter j) := by
  obtain ⟨id, b, hi, -, hcol, hread⟩ := (mem_graphSlots hg).mp (List.mem_of_getElem? hj)
  obtain ⟨k, hk, hfrom⟩ := exists_comesFrom h hi
  have hb := hg _ (List.mem_of_getElem? hi)
  obtain ⟨e, he, hplaces⟩ := hfrom.entry? hb hread
  rw [hfrom.lowered.dim_matrix hb] at hcol
  obtain ⟨hdiv, hmod⟩ := div_mod_place (r := s.row) hcol
  cases hplaces with
  | @parameter _ _ j' hj' =>
    rw [hdiv, hmod] at hj'
    have hlt := (List.getElem?_eq_some_iff.mp hj').1
    have heq : j' = j := (List.getElem?_inj hlt (nodup_graphSlots g)).mp (hj'.trans hj.symm)
    exact ⟨k, hk, heq ▸ he⟩

theorem tabulates_of_generate (hg : ∀ b ∈ g.blocks, b.2.gate.WellFormed)
    (h : generate n g = .ok out) : out.Tabulates n g := by
  obtain ⟨hcomes, hpreparation⟩ := generate_comesFrom h
  have hslots := slots_eq_graphSlots h
  refine ⟨?_, fun i id b hi => ?_, ?_, fun s => ?_, fun j s hj => ?_, ?_, fun p hp => ?_⟩
  · rw [← hcomes.length_eq, List.length_zipIdx]
  · obtain ⟨k, hk, hfrom⟩ := exists_comesFrom h hi
    exact ⟨k, hk, hfrom.isOf (hg _ (List.mem_of_getElem? hi))⟩
  · rw [hslots]
    exact pairwise_graphSlots g
  · rw [hslots]
    exact mem_graphSlots hg
  · exact exists_entry_of_slot hg h (hslots ▸ hj)
  · rw [hslots, hpreparation]
    split
    · rename_i hempty
      exact iff_of_true rfl (List.isEmpty_iff.mp hempty)
    · rename_i hempty
      exact iff_of_false (by simp) fun hnil => hempty (List.isEmpty_iff.mpr hnil)
  · rw [hpreparation] at hp
    split at hp
    · simp at hp
    · obtain rfl := Option.some.inj hp
      exact Preparation.sufficient_ofParameters (graphSlots g)

/-- Whatever calls a graph comes from, it has kernels for a width unless it has a block and the
width is beyond an index or too small for a block. The kernels then tabulate its symbolic
entries. -/
theorem generate_tabulates (calls : List (CircuitGraph.Call α))
    (h₀ : CircuitGraph.empty m = .ok g₀) (n : Nat) :
    ((∃ e, generate n (g₀.run calls) = .error e) ↔
      ((g₀.run calls).blocks ≠ [] ∧ 63 < n) ∨
        ∃ b ∈ (g₀.run calls).blocks, ∃ q ∈ b.2.gate.qubits, n ≤ q) ∧
      ∀ out, generate n (g₀.run calls) = .ok out → out.Tabulates n (g₀.run calls) := by
  obtain ⟨w, hs⟩ := (CircuitGraph.Sound.empty h₀).run calls
  set g := g₀.run calls
  have hg : ∀ b ∈ g.blocks, b.2.gate.WellFormed := fun b hb =>
    hs.wellFormed_gates _ (List.mem_map_of_mem (f := fun b => b.2.gate) hb)
  refine ⟨?_, fun out hout => tabulates_of_generate hg hout⟩
  have herror : (∃ e, generate n g = .error e) ↔ ¬ ∃ out, generate n g = .ok out := by
    cases generate n g <;> simp
  rw [herror, exists_generate_iff]
  unfold maxIndexWidth
  constructor
  · intro hnot
    push Not at hnot
    obtain ⟨b, hb, hfits⟩ := hnot
    by_cases hn : n ≤ 63
    · exact Or.inr ⟨b, hb, hfits hn⟩
    · exact Or.inl ⟨List.ne_nil_of_mem hb, Nat.lt_of_not_le hn⟩
  · rintro (⟨hne, hn⟩ | ⟨b, hb, q, hq, hle⟩) hfits
    · obtain ⟨b, hb⟩ := List.exists_mem_of_ne_nil _ hne
      exact Nat.not_lt.mpr (hfits b hb).1 hn
    · exact Nat.not_lt.mpr hle ((hfits b hb).2 q hq)

/-- A phase by a parameter, on one qubit. -/
def phaseOn (q : Qubit) (name : String) : Gate Binary64 :=
  ⟨"p", [q], ⟨1, #[.numeric 1, .numeric 0, .numeric 0, .symbolic (.expi (.symbol name))]⟩⟩

lemma wellFormed_phaseOn (q : Qubit) (name : String) : (phaseOn q name).WellFormed :=
  ⟨List.nodup_singleton q, (by decide : 1 ≤ maxIndexWidth), rfl, rfl⟩

/-- Phases on two qubits. -/
def twoPhases : List (CircuitGraph.Call Binary64) :=
  [.add (phaseOn 1 "b") (wellFormed_phaseOn 1 "b"), .add (phaseOn 0 "a") (wellFormed_phaseOn 0 "a")]

theorem generate_tabulates_twoPhases : ∃ (g : CircuitGraph Binary64)
    (out : GeneratedKernels Binary64), CircuitGraph.empty 2 = .ok g ∧
      generate 2 (g.run twoPhases) = .ok out ∧ out.Tabulates 2 (g.run twoPhases) := by
  obtain ⟨g, hempty⟩ : ∃ g : CircuitGraph Binary64, CircuitGraph.empty 2 = .ok g := ⟨_, rfl⟩
  obtain ⟨w, hs⟩ := (CircuitGraph.Sound.empty hempty).run twoPhases
  have hn : (g.run twoPhases).numQubits = 2 := by
    rw [(CircuitGraph.Sound.empty hempty).numQubits_run]
    obtain rfl := Except.ok.inj hempty
    rfl
  obtain ⟨out, hout⟩ := exists_generate (by decide : 2 ≤ maxIndexWidth) (hn ▸ hs.inside_gates)
  exact ⟨g, out, hempty, hout, (generate_tabulates twoPhases hempty 2).2 out hout⟩

end KernelSpec
end Generated

end GateFusion
