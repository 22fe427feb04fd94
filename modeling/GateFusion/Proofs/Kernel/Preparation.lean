import GateFusion.Proofs.Kernel.Lowering
import GateFusion.Proofs.Kernel.Run

/-!
# The parameter buffer

Parameters bound by name come out of a preparation as the value of every slot, at the two places of
the slot. So a kernel reads from the buffer what its entries stand for.
-/

namespace GateFusion
open KernelSpec
variable {α : Type} [Exact α]

/-- A buffer holds the values of slots, each in a pair of places. -/
def Filled (slots : List (ParameterSlot α)) (v : String → α) (params : List α) : Prop :=
  ∀ j s, slots[j]? = some s → params[2 * j]? = some (s.expr.value v).re ∧
    params[2 * j + 1]? = some (s.expr.value v).im

namespace Preparation
variable {p : Preparation α} {named : String → Option α}

omit [Exact α] in
lemma bind_eq_ok [Scalar α] (h : Binds named p.parameters) :
    p.bind named = .ok (p.parameters.map (valuation named)) := by
  unfold bind
  refine mapM_eq_ok fun n hn => ?_
  rw [lookup_eq_some.mpr ⟨h n hn, rfl⟩]

omit [Exact α] in
lemma binds_of_bind [Scalar α] {values : List α} (h : p.bind named = .ok values) :
    Binds named p.parameters := by
  intro name hname
  obtain ⟨value, -, hvalue⟩ := exists_of_forall₂ (forall₂_of_mapM h) hname
  cases hfound : named name with
  | none => simp [hfound] at hvalue
  | some x => rfl

omit [Exact α] in
lemma lookup_map (v : String → α) {n : String} (h : n ∈ p.parameters) :
    p.lookup (p.parameters.map v) n = some (v n) := by
  obtain ⟨i, hi⟩ := Option.isSome_iff_exists.mp (List.isSome_idxOf?.mpr h)
  obtain ⟨hlt, hget, -⟩ := List.idxOf?_eq_some_iff.mp hi
  unfold lookup position?
  rw [hi, Option.bind_some, List.getElem?_map, List.getElem?_eq_getElem hlt, hget, Option.map_some]

omit [Exact α] in
lemma checkValues_map (v : String → α) : p.checkValues (p.parameters.map v) = .ok () := by
  unfold checkValues
  rw [List.length_map, if_pos rfl]

lemma evaluate_lookup (v : String → α) {e : Polynomial α} (h : ∀ n ∈ e.symbols, n ∈ p.parameters) :
    e.evaluate (p.lookup (p.parameters.map v)) = some (e.value v) := by
  refine Polynomial.evaluate_eq_some.mpr ⟨fun n hn => ?_, Polynomial.value_congr fun n hn => ?_⟩
  · rw [lookup_map v (h n hn), Option.isSome_some]
  · rw [valuation, lookup_map v (h n hn), Option.getD_some]

end Preparation

namespace KernelSpec
variable {n : Nat} {slots : List (ParameterSlot α)} {gate : Gate α} {spec : KernelSpec α}

omit [Exact α] in
lemma Lowered.dim_eq (h : Lowered n slots gate spec) : spec.dim = 2 ^ gate.qubits.length := by
  obtain ⟨-, -, hd⟩ := Indexing.ofQubits_eq_ok.mp h.indexing
  rw [KernelSpec.dim, Indexing.groupSize, hd, List.length_map, List.length_range]

omit [Exact α] in
lemma Lowered.dim_matrix (h : Lowered n slots gate spec) (hgate : gate.WellFormed) :
    gate.matrix.dim = spec.dim := by
  rw [h.dim_eq, ← hgate.size]
  rfl

omit [Exact α] in
lemma Lowered.size_eq (h : Lowered n slots gate spec) (hgate : gate.WellFormed) :
    spec.matrix.size = spec.dim * spec.dim := by
  have hlen := h.entries.length_eq
  rw [Array.length_toList, Array.length_toList] at hlen
  rw [← hlen, ← h.dim_matrix hgate]
  exact hgate.entries

end KernelSpec

namespace Interpreter
variable {slots : List (ParameterSlot α)}

/-- A kernel entry has the value of the entry it holds. -/
lemma entryValue_of_lowers {v : String → α} {params : List α} (hf : Filled slots v params)
    {e : Entry α} {k : KernelEntry α} (h : Lowers slots e k) :
    entryValue k params = .ok (e.value v) := by
  cases h with
  | constant c => rfl
  | parameter hj =>
    obtain ⟨hre, him⟩ := hf _ _ hj
    unfold entryValue
    dsimp only
    rw [hre, him]
    rfl

/-- A kernel stands for the matrix of its gate. -/
theorem holds_of_lowered {n : Nat} {gate : Gate α} {spec : KernelSpec α} {v : String → α}
    {params : List α} (hgate : gate.WellFormed) (hf : Filled slots v params)
    (h : Lowered n slots gate spec) :
    Holds spec params gate.qubits.length (gate.matrix.value v) := by
  refine ⟨h.dim_eq, fun r c hr hc => ?_⟩
  rw [← h.dim_eq] at hr hc
  have hlt : r * spec.dim + c < spec.matrix.size := by
    rw [h.size_eq hgate]
    calc r * spec.dim + c < r * spec.dim + spec.dim := Nat.add_lt_add_left hc _
      _ = (r + 1) * spec.dim := (Nat.succ_mul _ _).symm
      _ ≤ spec.dim * spec.dim := Nat.mul_le_mul_right _ hr
  have hlt' : r * spec.dim + c < gate.matrix.entries.size := by
    have hlen := h.entries.length_eq
    rw [Array.length_toList, Array.length_toList] at hlen
    exact hlen ▸ hlt
  have hentry := (List.forall₂_iff_get.mp h.entries).2 _ hlt' hlt
  refine ⟨spec.matrix[r * spec.dim + c], Array.getElem?_eq_getElem hlt, ?_⟩
  have hvalue : gate.matrix.entry r c = gate.matrix.entries[r * spec.dim + c] := by
    rw [GateMatrix.entry, GateMatrix.get?, h.dim_matrix hgate, Array.getElem?_eq_getElem hlt',
      Option.getD_some]
  rw [GateMatrix.value, hvalue]
  exact entryValue_of_lowers hf hentry

end Interpreter
end GateFusion
