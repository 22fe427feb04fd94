import GateFusion.Proofs.Kernel.Groups
import GateFusion.Kernel.Spec
import GateFusion.Proofs.Circuit.Listing

/-!
# Lowering blocks to kernels

Kernels and blocks correspond one to one, and the slots are those of the symbolic entries of all
blocks, one after another. Slots are only ever appended, so the number of a slot keeps standing for
the entry it was given to, whatever is lowered later.
-/

namespace GateFusion.KernelSpec
variable {α : Type} {slots slots' : List (ParameterSlot α)}

/-- The slot of an entry, unless it is a number. -/
def slot? (kernel dim : Nat) (e : Entry α × Nat) : Option (ParameterSlot α) :=
  match e.1 with
  | .numeric _ => none
  | .symbolic p => some ⟨kernel, e.2 / dim, e.2 % dim, p⟩

/-- The slots of a block, which is given with the number of its kernel. -/
def slotsOf (b : (BlockId × Block α) × Nat) : List (ParameterSlot α) :=
  b.1.2.gate.matrix.entries.toList.zipIdx.filterMap (slot? b.2 b.1.2.gate.matrix.dim)

/-- The slots of all blocks in execution order. -/
def graphSlots (g : CircuitGraph α) : List (ParameterSlot α) := g.blocks.zipIdx.flatMap slotsOf

/-- A kernel entry holds a matrix entry: the number itself, or the slot of the expression. -/
inductive Lowers (slots : List (ParameterSlot α)) : Entry α → KernelEntry α → Prop where
  | constant (c : Cartesian α) : Lowers slots (.numeric c) (.constant c)
  | parameter {j : Nat} {s : ParameterSlot α} (h : slots[j]? = some s) :
      Lowers slots (.symbolic s.expr) (.parameter j)

/-- The same with the place of the entry, which its slot names. -/
inductive Places (slots : List (ParameterSlot α)) (kernel dim : Nat) :
    Entry α × Nat → KernelEntry α → Prop where
  | constant (c : Cartesian α) (i : Nat) : Places slots kernel dim (.numeric c, i) (.constant c)
  | parameter {p : Polynomial α} {i j : Nat}
      (h : slots[j]? = some ⟨kernel, i / dim, i % dim, p⟩) :
      Places slots kernel dim (.symbolic p, i) (.parameter j)

/-- A kernel holds the matrix of a gate, with the index arithmetic of its qubits. -/
structure Lowered (n : Nat) (slots : List (ParameterSlot α)) (gate : Gate α)
    (spec : KernelSpec α) : Prop where
  indexing : Indexing.ofQubits (α := α) gate.qubits n = .ok spec.indexing
  qubits : spec.qubits = gate.qubits
  entries : List.Forall₂ (Lowers slots) gate.matrix.entries.toList spec.matrix.toList

/-- A kernel comes from a block, which is given with the number of the kernel. -/
structure ComesFrom (n : Nat) (slots : List (ParameterSlot α)) (b : (BlockId × Block α) × Nat)
    (spec : KernelSpec α) : Prop where
  id : spec.id = b.2
  block : spec.block = b.1.1
  qubits : spec.qubits = b.1.2.gate.qubits
  origins : spec.origins = b.1.2.origins
  indexing : Indexing.ofQubits (α := α) b.1.2.gate.qubits n = .ok spec.indexing
  entries : List.Forall₂ (Places slots b.2 b.1.2.gate.matrix.dim)
    b.1.2.gate.matrix.entries.toList.zipIdx spec.matrix.toList

lemma Places.mono (h : slots <+: slots') {kernel dim : Nat} {e : Entry α × Nat}
    {k : KernelEntry α} (he : Places slots kernel dim e k) : Places slots' kernel dim e k := by
  cases he with
  | constant c i => exact .constant c i
  | parameter hj =>
    obtain ⟨rest, rfl⟩ := h
    have hlt := (List.getElem?_eq_some_iff.mp hj).1
    exact .parameter ((List.getElem?_append_left hlt).trans hj)

lemma Places.lowers {kernel dim : Nat} {e : Entry α × Nat} {k : KernelEntry α}
    (h : Places slots kernel dim e k) : Lowers slots e.1 k := by
  cases h with
  | constant c i => exact .constant c
  | parameter hj => exact .parameter hj

lemma ComesFrom.mono (h : slots <+: slots') {n : Nat} {b : (BlockId × Block α) × Nat}
    {spec : KernelSpec α} (hc : ComesFrom n slots b spec) : ComesFrom n slots' b spec :=
  ⟨hc.id, hc.block, hc.qubits, hc.origins, hc.indexing, hc.entries.imp fun _ _ => Places.mono h⟩

lemma ComesFrom.lowered {n : Nat} {b : (BlockId × Block α) × Nat} {spec : KernelSpec α}
    (h : ComesFrom n slots b spec) : Lowered n slots b.1.2.gate spec := by
  refine ⟨h.indexing, h.qubits, ?_⟩
  have hentries := h.entries.imp fun _ _ => Places.lowers
  rwa [← List.forall₂_map_left_iff, List.zipIdx_map_fst] at hentries

/-- Every slot holds an entry of one of the gates. -/
def Stem (slots : List (ParameterSlot α)) (gates : List (Gate α)) : Prop :=
  ∀ s ∈ slots, ∃ gate ∈ gates, .symbolic s.expr ∈ gate.matrix.entries.toList

/-- Every symbolic entry of a lowered gate has a slot. -/
lemma Lowered.exists_slot {n : Nat} {gate : Gate α} {spec : KernelSpec α}
    (h : Lowered n slots gate spec) {p : Polynomial α}
    (hp : .symbolic p ∈ gate.matrix.entries.toList) : ∃ s ∈ slots, s.expr = p := by
  obtain ⟨k, -, hlowers⟩ := exists_of_forall₂ h.entries hp
  cases hlowers with
  | parameter hj => exact ⟨_, List.mem_of_getElem? hj, rfl⟩

lemma slot?_eq_some {kernel dim : Nat} {e : Entry α × Nat} {s : ParameterSlot α} :
    slot? kernel dim e = some s ↔
      e.1 = .symbolic s.expr ∧ s.kernel = kernel ∧ s.row = e.2 / dim ∧ s.col = e.2 % dim := by
  obtain ⟨entry, i⟩ := e
  obtain ⟨k, r, c, p⟩ := s
  cases entry with
  | numeric z => simp [slot?]
  | symbolic q =>
    simp only [slot?, Option.some.injEq, ParameterSlot.mk.injEq, Entry.symbolic.injEq]
    tauto

lemma lowerEntry_spec (kernel dim : Nat) (acc : Array (KernelEntry α) × List (ParameterSlot α))
    (e : Entry α × Nat) :
    (lowerEntry kernel dim acc e).2 = acc.2 ++ (slot? kernel dim e).toList ∧
      ∃ k, (lowerEntry kernel dim acc e).1 = acc.1.push k ∧
        Places (lowerEntry kernel dim acc e).2 kernel dim e k := by
  obtain ⟨entry, i⟩ := e
  cases entry with
  | numeric c => exact ⟨(List.append_nil _).symm, .constant c, rfl, .constant c i⟩
  | symbolic p =>
    exact ⟨rfl, .parameter acc.2.length, rfl, .parameter List.getElem?_concat_length⟩

lemma foldl_lowerEntry (kernel dim : Nat) (es : List (Entry α × Nat))
    (acc : Array (KernelEntry α) × List (ParameterSlot α)) :
    let out := es.foldl (lowerEntry kernel dim) acc
    out.2 = acc.2 ++ es.filterMap (slot? kernel dim) ∧ ∃ ks, out.1.toList = acc.1.toList ++ ks ∧
      List.Forall₂ (Places out.2 kernel dim) es ks := by
  induction es generalizing acc with
  | nil => exact ⟨(List.append_nil _).symm, [], (List.append_nil _).symm, .nil⟩
  | cons e es ih =>
    obtain ⟨hslot, k, hpush, hk⟩ := lowerEntry_spec kernel dim acc e
    obtain ⟨hslots, ks, hks, hrest⟩ := ih (lowerEntry kernel dim acc e)
    have hgrow : (lowerEntry kernel dim acc e).2 <+:
        (es.foldl (lowerEntry kernel dim) (lowerEntry kernel dim acc e)).2 :=
      ⟨_, hslots.symm⟩
    refine ⟨?_, k :: ks, ?_, .cons (hk.mono hgrow) hrest⟩
    · rw [List.foldl_cons, hslots, hslot, List.append_assoc, List.filterMap_cons]
      cases slot? kernel dim e <;> rfl
    · rw [List.foldl_cons, hks, hpush, Array.toList_push, List.append_assoc]
      rfl

lemma lowerBlock_spec {n : Nat} {acc out : List (KernelSpec α) × List (ParameterSlot α)}
    {b : BlockId × Block α} (h : lowerBlock n acc b = .ok out) :
    out.2 = acc.2 ++ slotsOf (b, acc.1.length) ∧
      ∃ spec, out.1 = acc.1 ++ [spec] ∧ ComesFrom n out.2 (b, acc.1.length) spec := by
  unfold lowerBlock at h
  obtain ⟨indexing, hindexing, h⟩ := bind_eq_ok.mp h
  obtain ⟨hslots, ks, hks, hplaces⟩ := foldl_lowerEntry acc.1.length
    b.2.gate.matrix.dim b.2.gate.matrix.entries.toList.zipIdx (#[], acc.2)
  obtain rfl := Except.ok.inj h
  refine ⟨hslots, _, rfl, rfl, rfl, rfl, rfl, hindexing, ?_⟩
  dsimp only
  rw [hks]
  exact hplaces

lemma foldlM_lowerBlock {n : Nat} {bs : List (BlockId × Block α)}
    {acc out : List (KernelSpec α) × List (ParameterSlot α)}
    (h : bs.foldlM (lowerBlock n) acc = .ok out) :
    out.2 = acc.2 ++ (bs.zipIdx acc.1.length).flatMap slotsOf ∧
      ∃ specs, out.1 = acc.1 ++ specs ∧
        List.Forall₂ (ComesFrom n out.2) (bs.zipIdx acc.1.length) specs := by
  induction bs generalizing acc with
  | nil =>
    obtain rfl := Except.ok.inj h
    exact ⟨(List.append_nil _).symm, [], (List.append_nil _).symm, .nil⟩
  | cons b bs ih =>
    rw [List.foldlM_cons] at h
    obtain ⟨mid, hstep, h⟩ := bind_eq_ok.mp h
    obtain ⟨hslot, spec, hspec, hcomes⟩ := lowerBlock_spec hstep
    obtain ⟨hslots, specs, hspecs, hrest⟩ := ih h
    have hlen : mid.1.length = acc.1.length + 1 := by
      rw [hspec, List.length_append, List.length_singleton]
    rw [hlen] at hslots hrest
    refine ⟨?_, spec :: specs, ?_, .cons (hcomes.mono ⟨_, hslots.symm⟩) hrest⟩
    · rw [hslots, hslot, List.append_assoc, List.zipIdx_cons, List.flatMap_cons]
    · rw [hspecs, hspec, List.append_assoc]
      rfl

/-- The kernels of a graph come from its blocks in execution order, and the slots are those of the
blocks. -/
theorem generate_comesFrom [Scalar α] {n : Nat} {g : CircuitGraph α} {out : GeneratedKernels α}
    (h : generate n g = .ok out) :
    List.Forall₂ (ComesFrom n (graphSlots g)) g.blocks.zipIdx out.kernels ∧
      out.preparation = if (graphSlots g).isEmpty then none
        else some (.ofParameters ((graphSlots g).flatMap fun s => s.expr.symbols)
          (graphSlots g)) := by
  unfold generate at h
  obtain ⟨acc, hfold, h⟩ := bind_eq_ok.mp h
  obtain rfl := Except.ok.inj h
  obtain ⟨hslots, specs, hspecs, hcomes⟩ := foldlM_lowerBlock hfold
  have hslots : acc.2 = graphSlots g := hslots
  rw [← hslots]
  refine ⟨?_, rfl⟩
  dsimp only
  rw [hspecs]
  exact hcomes

/-- The kernels of a graph hold its gates in execution order. The slots hold entries of its gates,
and the preparation names their symbols. -/
theorem generate_spec [Scalar α] {n : Nat} {g : CircuitGraph α} {out : GeneratedKernels α}
    (h : generate n g = .ok out) : ∃ slots, List.Forall₂ (Lowered n slots) g.gates out.kernels ∧
      Stem slots g.gates ∧ out.preparation = if slots.isEmpty then none
        else some (.ofParameters (slots.flatMap fun s => s.expr.symbols) slots) := by
  obtain ⟨hcomes, hpreparation⟩ := generate_comesFrom h
  have hgates : g.gates = g.blocks.zipIdx.map fun b => b.1.2.gate := by
    have hfst := congrArg (List.map fun b => b.2.gate) (List.zipIdx_map_fst 0 g.blocks)
    rw [List.map_map] at hfst
    exact hfst.symm
  refine ⟨_, ?_, fun s hs => ?_, hpreparation⟩
  · rw [hgates, List.forall₂_map_left_iff]
    exact hcomes.imp fun _ _ => ComesFrom.lowered
  · obtain ⟨b, hb, hs⟩ := List.mem_flatMap.mp hs
    obtain ⟨e, he, hslot⟩ := List.mem_filterMap.mp hs
    rw [hgates]
    refine ⟨_, List.mem_map_of_mem hb, ?_⟩
    rw [← (slot?_eq_some.mp hslot).1]
    exact List.fst_mem_of_mem_zipIdx he

/-- A graph has kernels exactly if all its blocks fit the width. -/
theorem exists_generate_iff [Scalar α] {n : Nat} {g : CircuitGraph α} :
    (∃ out, generate n g = .ok out) ↔
      ∀ b ∈ g.blocks, n ≤ maxIndexWidth ∧ ∀ q ∈ b.2.gate.qubits, q < n := by
  constructor
  · rintro ⟨out, h⟩ b hb
    obtain ⟨i, hi⟩ := List.mem_iff_getElem?.mp hb
    have hmem : (b, i) ∈ g.blocks.zipIdx := List.mem_zipIdx_iff_getElem?.mpr hi
    obtain ⟨spec, -, hspec⟩ := exists_of_forall₂ (generate_comesFrom h).1 hmem
    obtain ⟨hn, hq, -⟩ := Indexing.ofQubits_eq_ok.mp hspec.indexing
    exact ⟨hn, hq⟩
  · intro hfits
    have hblock : ∀ b ∈ g.blocks, ∀ acc, ∃ next, lowerBlock n acc b = .ok next := by
      intro b hb acc
      obtain ⟨hn, hq⟩ := hfits b hb
      unfold lowerBlock
      dsimp only
      rw [Indexing.ofQubits_eq_ok.mpr ⟨hn, hq, rfl⟩]
      exact ⟨_, rfl⟩
    obtain ⟨out, hout⟩ := exists_foldlM hblock ([], [])
    unfold generate
    rw [hout]
    exact ⟨_, rfl⟩

/-- Graphs that fit the width have kernels. -/
theorem exists_generate [Scalar α] {n : Nat} (hn : n ≤ maxIndexWidth) {g : CircuitGraph α}
    (hg : ∀ gate ∈ g.gates, ∀ q ∈ gate.qubits, q < n) : ∃ out, generate n g = .ok out :=
  exists_generate_iff.mpr fun b hb =>
    ⟨hn, hg b.2.gate (List.mem_map_of_mem (f := fun b => b.2.gate) hb)⟩

end GateFusion.KernelSpec
