import GateFusion.Proofs.Kernel.Groups
import GateFusion.Proofs.State.Apply
import GateFusion.Simulation.Interpreter

/-!
# Running a kernel

A kernel visits every group once, reads its amplitudes and writes the product with the matrix. The
entries it skips are zero, so what it leaves is what the operator does.
-/

namespace GateFusion.Interpreter
open Statevector
variable {α : Type} [Exact α] {spec : KernelSpec α} {params : List α} {qs : List Qubit}
  {m : Nat → Nat → Cartesian α}

/-- The entries of a kernel stand for a matrix. -/
structure Holds (spec : KernelSpec α) (params : List α) (k : Nat) (m : Nat → Nat → Cartesian α) :
    Prop where
  dim : spec.dim = 2 ^ k
  entry : ∀ r c, r < 2 ^ k → c < 2 ^ k →
    ∃ e, spec.entry? r c = some e ∧ entryValue e params = .ok (m r c)

/-- Entries known to be zero have the value zero. -/
lemma eq_zero_of_isZero {e : KernelEntry α} {x : Cartesian α} (he : e.isZero = true)
    (hx : entryValue e params = .ok x) : x = 0 := by
  cases e with
  | constant c =>
    obtain rfl := Except.ok.inj hx
    exact eq_of_beq he
  | parameter slot => simp [KernelEntry.isZero] at he

/-- The entries of a row in some columns, without those known to be zero. -/
def sparseRow (spec : KernelSpec α) (row : Nat) (cols : List Nat) : SparseRow α :=
  cols.filterMap fun col =>
    match spec.entry? row col with
    | some e => if e.isZero then none else some (col, e)
    | none => none

lemma sparseRows_eq : sparseRows spec =
    (List.range spec.dim).map fun r => sparseRow spec r (List.range spec.dim) := rfl

/-- Leaving out zeros does not change the product of a row and a group. -/
lemma rowValue_eq (hspec : Holds spec params qs.length m) (input : Array (Cartesian α)) {r : Nat}
    (hr : r < 2 ^ qs.length) {cols : List Nat} (hcols : ∀ c ∈ cols, c < 2 ^ qs.length) :
    rowValue params input (sparseRow spec r cols) =
      .ok ((cols.map fun c => m r c * input.getD c 0).sum) := by
  have hfold : ∀ acc : Cartesian α, (sparseRow spec r cols).foldlM (fun acc e => do
      let v ← entryValue e.2 params
      return acc + v * input.getD e.1 0) acc =
        .ok (acc + (cols.map fun c => m r c * input.getD c 0).sum) := by
    induction cols with
    | nil =>
      intro acc
      rw [List.map_nil, List.sum_nil, add_zero]
      rfl
    | cons c cols ih =>
      intro acc
      obtain ⟨e, he, hvalue⟩ := hspec.entry r c hr (hcols c (by simp))
      have hrest := ih fun d hd => hcols d (by simp [hd])
      unfold sparseRow at hrest ⊢
      rw [List.filterMap_cons, he, List.map_cons, List.sum_cons]
      dsimp only
      cases hzero : e.isZero with
      | true =>
        rw [if_pos rfl, eq_zero_of_isZero hzero hvalue, zero_mul, zero_add]
        exact hrest acc
      | false =>
        rw [if_neg Bool.false_ne_true]
        dsimp only
        rw [List.foldlM_cons, hvalue, ← add_assoc]
        exact hrest _
  unfold rowValue
  rw [hfold, zero_add]

lemma gatherGroup_eq {amps : Array (Cartesian α)} {indices : List Nat}
    (h : ∀ i ∈ indices, i < amps.size) :
    gatherGroup amps indices = .ok (indices.map fun i => amps.getD i 0).toArray := by
  unfold gatherGroup
  rw [mapM_eq_ok (k := fun i => amps.getD i 0) fun i hi => ?_]
  · rfl
  · rw [Array.getElem?_eq_getElem (h i hi), Array.getD_eq_getD_getElem?,
      Array.getElem?_eq_getElem (h i hi), Option.getD_some]

/-- One group of a kernel is one group of the gate-by-gate simulation. -/
lemma applyGroup_eq (hspec : Holds spec params qs.length m) {amps : Array (Cartesian α)}
    {base : Nat} (h : ∀ j < 2 ^ qs.length, base ||| scatter qs j < amps.size) :
    applyGroup (sparseRows spec) params amps
        ((List.range (2 ^ qs.length)).map fun j => base ||| scatter qs j) =
      .ok (Statevector.applyGroup (rowsOf qs.length m)
        ((List.range (2 ^ qs.length)).map (scatter qs)) amps base) := by
  have hindices : ∀ i ∈ (List.range (2 ^ qs.length)).map fun j => base ||| scatter qs j,
      i < amps.size := by
    intro i hi
    obtain ⟨j, hj, rfl⟩ := List.mem_map.mp hi
    exact h j (List.mem_range.mp hj)
  unfold applyGroup
  rw [gatherGroup_eq hindices]
  dsimp only [bind, Except.bind]
  unfold Statevector.applyGroup rowsOf
  rw [sparseRows_eq, hspec.dim, List.zip_map', List.zip_map', List.foldlM_map, List.foldl_map]
  refine foldlM_eq_ok (P := fun _ => True) (fun acc _ r hr => ⟨?_, trivial⟩) trivial
  dsimp only
  rw [rowValue_eq hspec _ (List.mem_range.mp hr) fun c hc => List.mem_range.mp hc]
  have hinput : ∀ c < 2 ^ qs.length, (((List.range (2 ^ qs.length)).map fun j =>
      base ||| scatter qs j).map fun i => amps.getD i 0).toArray.getD c 0 =
        amps.getD (base ||| scatter qs c) 0 := by
    intro c hc
    rw [Array.getD_eq_getD_getElem?, List.getElem?_toArray, List.map_map, List.getElem?_map,
      List.getElem?_range hc, Option.map_some, Option.getD_some]
    rfl
  have hsum : (List.range (2 ^ qs.length)).map (fun c => m r c *
      (((List.range (2 ^ qs.length)).map fun j => base ||| scatter qs j).map
        fun i => amps.getD i 0).toArray.getD c 0) =
      (((List.range (2 ^ qs.length)).map (m r)).zip (((List.range (2 ^ qs.length)).map
        (scatter qs)).map fun o => amps.getD (base ||| o) 0)).map fun p => p.1 * p.2 := by
    have hgroup : ((List.range (2 ^ qs.length)).map (scatter qs)).map
        (fun o => amps.getD (base ||| o) 0) =
          (List.range (2 ^ qs.length)).map fun c => amps.getD (base ||| scatter qs c) 0 :=
      List.map_map
    rw [hgroup, List.zip_map']
    refine (List.map_congr_left fun c hc => ?_).trans List.map_map.symm
    rw [hinput c (List.mem_range.mp hc)]
    rfl
  rw [hsum, ← Cartesian.sum_eq]
  rfl

lemma groupIndices_eq (hq : ∀ q ∈ qs, q < 64) (free : UInt64) (group : Nat) :
    groupIndices ((List.range (2 ^ qs.length)).map (Indexing.offset qs)) free group =
      (List.range (2 ^ qs.length)).map fun j =>
        (Bits.deposit (UInt64.ofNat group) free).toNat ||| scatter qs j := by
  unfold groupIndices
  rw [List.map_map]
  refine List.map_congr_left fun j _ => ?_
  rw [Function.comp_apply, UInt64.toNat_or, toNat_offset hq]

/-- A kernel leaves what its operator leaves. -/
theorem runKernel_spec {s : Statevector α} (hs : s.WellFormed) (hn : qs.Nodup)
    (hindexing : Indexing.ofQubits (α := α) qs s.numQubits = .ok spec.indexing)
    (hqubits : spec.qubits = qs) (hspec : Holds spec params qs.length m) : ∃ t : Statevector α,
      runKernel (sparseRows spec) spec.indexing.offsets spec.arity s.amplitudes s.numQubits
        spec.indexing.mask params = .ok t.amplitudes ∧
      t.numQubits = s.numQubits ∧ t.WellFormed ∧ t.amp = act qs m s.amp := by
  obtain ⟨hwidth, hq, hd⟩ := Indexing.ofQubits_eq_ok.mp hindexing
  have hq64 : ∀ q ∈ qs, q < 64 := fun q hmem =>
    (hq q hmem).trans_le (hwidth.trans (by decide))
  have harity : ¬ s.numQubits < spec.arity := by
    have hsub : ∀ q ∈ qs, q ∈ List.range s.numQubits := fun q hmem => List.mem_range.mpr (hq q hmem)
    have hlen := (List.subperm_of_subset hn hsub).length_le
    rw [List.length_range] at hlen
    rw [KernelSpec.arity, hqubits]
    exact Nat.not_lt.mpr hlen
  obtain ⟨hnodup, hbases⟩ := groupBases_spec hwidth hn hq
  obtain ⟨hwf, hamp⟩ := foldl_applyGroup_act m hs hn hq hnodup hbases
  refine ⟨{ s with amplitudes := (groupBases s.numQubits qs).foldl (Statevector.applyGroup
    (rowsOf qs.length m) ((List.range (2 ^ qs.length)).map (scatter qs))) s.amplitudes },
    ?_, rfl, hwf, hamp⟩
  unfold runKernel
  rw [if_neg harity, hd, KernelSpec.arity, hqubits]
  dsimp only
  rw [groupBases, List.foldl_map]
  refine foldlM_eq_ok (P := fun amps : Array (Cartesian α) => amps.size = 2 ^ s.numQubits)
    (fun amps hsize group hgroup => ?_) hs
  obtain ⟨hlt, hclear⟩ := (hbases _).mp (List.mem_map_of_mem hgroup)
  rw [groupIndices_eq hq64]
  refine ⟨applyGroup_eq hspec fun j _ => ?_, ?_⟩
  · rw [base_or_scatter hclear, hsize]
    exact patch_lt hq hlt
  · rw [(applyGroup_spec m hn hq hlt hclear hsize).1, hsize]

end GateFusion.Interpreter
