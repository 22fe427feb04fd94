import Mathlib.Algebra.BigOperators.Group.Finset.Basic
import Mathlib.Algebra.BigOperators.Intervals
import Mathlib.LinearAlgebra.Matrix.Defs
import GateFusion.Matrix.Basic
import GateFusion.Proofs.Loops
import GateFusion.Proofs.Matrix.Entry

/-!
# Values of gate matrices

A matrix has a value at every place. The product has the values of the matrix product, although
pairs with a factor of zero are left out; and evaluation lists the values row by row.
-/

namespace GateFusion.GateMatrix

section Entries
variable {α : Type}

lemma dim_eq (m : GateMatrix α) : m.dim = 2 ^ m.numQubits := rfl

lemma place_lt {n r c : Nat} (hr : r < n) (hc : c < n) : r * n + c < n * n := by
  have h := Nat.mul_le_mul_right n (Nat.succ_le_of_lt hr)
  rw [Nat.succ_mul] at h
  omega

lemma get?_eq_some {m : GateMatrix α} (hm : m.WellFormed) {r c : Nat} (hr : r < m.dim)
    (hc : c < m.dim) : ∃ e ∈ m.entries.toList, m.get? r c = some e := by
  have hlt : r * m.dim + c < m.entries.size := by
    rw [hm]
    exact place_lt hr hc
  exact ⟨m.entries[r * m.dim + c], by simp, by rw [get?, Array.getElem?_eq_getElem hlt]⟩

section OfFn
variable {k : Nat} {f : Nat → Nat → Entry α}

lemma wellFormed_ofFn : (ofFn k f).WellFormed := by simp [WellFormed, ofFn, dim]

lemma get?_ofFn {r c : Nat} (hr : r < 2 ^ k) (hc : c < 2 ^ k) :
    (ofFn k f).get? r c = some (f r c) := by
  have hlt := place_lt hr hc
  have hdiv : (r * 2 ^ k + c) / 2 ^ k = r := by
    rw [Nat.mul_comm, Nat.mul_add_div (Nat.two_pow_pos k), Nat.div_eq_of_lt hc, Nat.add_zero]
  have hmod : (r * 2 ^ k + c) % 2 ^ k = c := by
    rw [Nat.mul_comm, Nat.mul_add_mod, Nat.mod_eq_of_lt hc]
  simp [get?, ofFn, dim, hlt, hdiv, hmod]

lemma entry_ofFn [Scalar α] {r c : Nat} (hr : r < 2 ^ k) (hc : c < 2 ^ k) :
    (ofFn k f).entry r c = f r c := by
  rw [entry, get?_ofFn hr hc, Option.getD_some]

lemma forall_mem_ofFn {P : Entry α → Prop} (h : ∀ r c, r < 2 ^ k → c < 2 ^ k → P (f r c)) :
    ∀ e ∈ (ofFn k f).entries.toList, P e := by
  intro e he
  simp only [ofFn, List.mem_map, List.mem_range, Nat.pow_eq] at he
  obtain ⟨i, hi, rfl⟩ := he
  exact h _ _ (Nat.div_lt_of_lt_mul hi) (Nat.mod_lt _ (Nat.two_pow_pos k))

end OfFn
end Entries

/-- Matrices of one size have a product. -/
lemma multiply_eq_ok {α : Type} [Scalar α] {a b m : GateMatrix α} : a.multiply b = .ok m ↔
    a.numQubits = b.numQubits ∧ m = ofFn a.numQubits (productEntry a b) := by
  unfold multiply
  split
  · rename_i h
    rw [and_iff_right h, Except.ok.injEq, eq_comm]
  · rename_i h
    simp [h]

lemma shape_of_multiply {α : Type} [Scalar α] {a b m : GateMatrix α} (h : a.multiply b = .ok m) :
    a.numQubits = b.numQubits ∧ m.numQubits = a.numQubits ∧ m.WellFormed := by
  obtain ⟨hk, rfl⟩ := multiply_eq_ok.mp h
  exact ⟨hk, rfl, wellFormed_ofFn⟩

section Regular
variable {α : Type} [Scalar α] {a b m : GateMatrix α}

/-- A place in the matrix, or outside where the entry is zero. -/
lemma entry_cases (m : GateMatrix α) (r c : Nat) : m.entry r c ∈ m.entries.toList ∨
    m.entry r c = 0 := by
  unfold entry get?
  cases h : m.entries[r * m.dim + c]? with
  | none => exact Or.inr rfl
  | some e =>
    obtain ⟨hlt, rfl⟩ := Array.getElem?_eq_some_iff.mp h
    exact Or.inl (by simp)

section Closed
variable {P : Entry α → Prop} (hP : Entry.Closed P)
include hP

lemma entry_of_forall_mem (hm : ∀ e ∈ m.entries.toList, P e) (r c : Nat) : P (m.entry r c) := by
  rcases entry_cases m r c with h | h
  · exact hm _ h
  · exact h ▸ hP.numeric 0

lemma forall_mem_multiply (ha : ∀ e ∈ a.entries.toList, P e) (hb : ∀ e ∈ b.entries.toList, P e)
    (h : a.multiply b = .ok m) : ∀ e ∈ m.entries.toList, P e := by
  obtain ⟨-, rfl⟩ := multiply_eq_ok.mp h
  refine forall_mem_ofFn fun r c _ _ => ?_
  refine List.foldlRecOn _ _ (motive := P) (hP.numeric 0) fun acc hacc k _ => ?_
  dsimp only
  split
  · exact hacc
  · exact hP.add hacc (hP.mul (entry_of_forall_mem hP ha r k) (entry_of_forall_mem hP hb k c))

end Closed

/-- All entries are well formed. -/
def Regular (m : GateMatrix α) : Prop := ∀ e ∈ m.entries.toList, e.WellFormed

/-- The largest exponent of all entries. -/
def degree (m : GateMatrix α) : Nat := largest (m.entries.toList.map Entry.degree)

omit [Scalar α] in
lemma degree_le_iff {d : Nat} : m.degree ≤ d ↔ ∀ e ∈ m.entries.toList, e.degree ≤ d := by
  rw [degree, largest_le_iff, List.forall_mem_map]

lemma degree_entry_le (m : GateMatrix α) (r c : Nat) : (m.entry r c).degree ≤ m.degree := by
  rcases entry_cases m r c with h | h
  · exact degree_le_iff.mp le_rfl _ h
  · rw [h]
    exact Nat.zero_le _

variable [Std.TransCmp (Scalar.totalCmp (α := α))]

lemma Regular.entry (hm : m.Regular) (r c : Nat) : (m.entry r c).WellFormed :=
  entry_of_forall_mem Entry.closed_wellFormed hm r c

lemma Regular.multiply (ha : a.Regular) (hb : b.Regular) (h : a.multiply b = .ok m) : m.Regular :=
  forall_mem_multiply Entry.closed_wellFormed ha hb h

/-- Exponents add up to no more than the sum of the largest. -/
lemma degree_multiply_le (ha : a.Regular) (hb : b.Regular) (h : a.multiply b = .ok m) :
    m.degree ≤ a.degree + b.degree := by
  obtain ⟨-, rfl⟩ := multiply_eq_ok.mp h
  refine degree_le_iff.mpr (forall_mem_ofFn fun r c _ _ => ?_)
  refine List.foldlRecOn _ _ (motive := fun e => Entry.degree e ≤ a.degree + b.degree)
    (Nat.zero_le _) fun acc hacc k _ => ?_
  dsimp only
  split
  · exact hacc
  · have hmul := Entry.degree_mul_le (ha.entry r k) (hb.entry k c)
    have hrow := a.degree_entry_le r k
    have hcol := b.degree_entry_le k c
    exact (Entry.degree_add_le _ _).trans (max_le hacc (by omega))

end Regular

variable {α : Type} [Exact α]

/-- The value of a matrix at a place, with a number for every symbol. -/
def value (v : String → α) (m : GateMatrix α) (r c : Nat) : Cartesian α := (m.entry r c).value v

omit [Exact α] in
lemma mem_symbols [Scalar α] {m : GateMatrix α} {n : String} :
    n ∈ m.symbols ↔ ∃ e ∈ m.entries.toList, n ∈ e.symbols := by
  rw [symbols, NameSet.mem_ofList, List.mem_flatMap]

lemma mem_symbols_entry {m : GateMatrix α} {r c : Nat} {n : String}
    (h : n ∈ (m.entry r c).symbols) : n ∈ m.symbols := by
  rcases m.entry_cases r c with hmem | hzero
  · exact mem_symbols.mpr ⟨_, hmem, h⟩
  · rw [hzero, Entry.symbols_zero] at h
    simp at h

lemma value_ofFn {k r c : Nat} {f : Nat → Nat → Entry α} (hr : r < 2 ^ k) (hc : c < 2 ^ k)
    (v : String → α) : (ofFn k f).value v r c = (f r c).value v := by
  rw [value, entry_ofFn hr hc]

section Product
variable {a b : GateMatrix α}

lemma mem_symbols_productEntry {r c : Nat} {n : String}
    (h : n ∈ (productEntry a b r c).symbols) : n ∈ a.symbols ∨ n ∈ b.symbols := by
  revert h
  refine List.foldlRecOn _ _
    (motive := fun e => n ∈ Entry.symbols e → n ∈ a.symbols ∨ n ∈ b.symbols) ?_ ?_
  · simp [Entry.symbols_zero]
  · intro acc hacc k _ h
    dsimp only at h
    split at h
    · exact hacc h
    · rcases (Entry.add_spec _ _).2 n h with h | h
      · exact hacc h
      · exact (Entry.mem_symbols_mul h).imp mem_symbols_entry mem_symbols_entry

/-- An entry of a product is the sum of products, in whatever terms are left out. -/
lemma value_productEntry (a b : GateMatrix α) (v : String → α) (r c : Nat) :
    (productEntry a b r c).value v =
      ∑ k ∈ Finset.range a.dim, ((a.entry r k).mul (b.entry k c)).value v := by
  unfold productEntry
  induction a.dim with
  | zero => simp
  | succ d ih =>
    rw [List.range_succ, List.foldl_append, List.foldl_cons, List.foldl_nil, Finset.sum_range_succ]
    generalize List.foldl _ _ (List.range d) = acc at ih ⊢
    dsimp only
    split
    · rename_i hzero
      rw [ih, Entry.value_mul_of_isZero hzero, add_zero]
    · rw [(Entry.add_spec _ _).1, ih]

lemma value_productEntry_eq_sum (ha : a.Regular) (hb : b.Regular)
    (hd : a.degree + b.degree < 2 ^ 32) (v : String → α) (r c : Nat) :
    (productEntry a b r c).value v =
      ∑ k ∈ Finset.range a.dim, a.value v r k * b.value v k c := by
  rw [value_productEntry]
  refine Finset.sum_congr rfl fun k _ => ?_
  have hrow := a.degree_entry_le r k
  have hcol := b.degree_entry_le k c
  rw [Entry.value_mul (ha.entry r k) (hb.entry k c) (by omega), value, value]

/-- The product of two matrices. -/
theorem value_multiply {m : GateMatrix α} (ha : a.Regular) (hb : b.Regular)
    (hd : a.degree + b.degree < 2 ^ 32) (h : a.multiply b = .ok m) (v : String → α) {r c : Nat}
    (hr : r < 2 ^ a.numQubits) (hc : c < 2 ^ a.numQubits) :
    m.value v r c = ∑ k ∈ Finset.range (2 ^ a.numQubits), a.value v r k * b.value v k c := by
  obtain ⟨-, rfl⟩ := multiply_eq_ok.mp h
  rw [value_ofFn hr hc, value_productEntry_eq_sum ha hb hd, dim_eq]

lemma mem_symbols_multiply {m : GateMatrix α} (h : a.multiply b = .ok m) :
    ∀ n ∈ m.symbols, n ∈ a.symbols ∨ n ∈ b.symbols := by
  obtain ⟨-, rfl⟩ := multiply_eq_ok.mp h
  intro n hn
  obtain ⟨e, he, hn⟩ := mem_symbols.mp hn
  exact forall_mem_ofFn (P := fun e => ∀ n ∈ e.symbols, n ∈ a.symbols ∨ n ∈ b.symbols)
    (fun r c _ _ n hn => mem_symbols_productEntry hn) e he n hn

end Product

/-- Evaluation succeeds exactly if every symbol is bound, and lists the values of the entries. -/
theorem evaluate_eq_some {m : GateMatrix α} {lookup : String → Option α}
    {xs : List (Cartesian α)} : m.evaluate lookup = some xs ↔
      Binds lookup m.symbols ∧ xs = m.entries.toList.map fun e => e.value (valuation lookup) := by
  refine (mapM_eq_some fun e _ x => Entry.evaluate_eq_some).trans (and_congr_left fun _ => ?_)
  refine ⟨fun h n hn => ?_, fun h e he n hn => h n (mem_symbols.mpr ⟨e, he, hn⟩)⟩
  obtain ⟨e, he, hn⟩ := mem_symbols.mp hn
  exact h e he n hn

/-- The square matrix whose entries a list holds row by row. -/
def squareOf (k : Nat) (xs : List (Cartesian α)) :
    Matrix (Fin (2 ^ k)) (Fin (2 ^ k)) (Cartesian α) :=
  Matrix.of fun r c => xs.getD (r * 2 ^ k + c) 0

lemma squareOf_values {m : GateMatrix α} {k : Nat} (hk : m.numQubits = k) (v : String → α) :
    squareOf k (m.entries.toList.map fun e => e.value v) =
      Matrix.of fun r c : Fin (2 ^ k) => m.value v r c := by
  subst hk
  refine Matrix.ext fun r c => ?_
  rw [squareOf, Matrix.of_apply, Matrix.of_apply, value, entry, get?, dim_eq,
    List.getD_eq_getElem?_getD, List.getElem?_map, Array.getElem?_toList]
  cases m.entries[(r : Nat) * 2 ^ m.numQubits + c]? with
  | none => rfl
  | some e => rfl

/-- The values in one row of the list of all values. -/
lemma row_eq {m : GateMatrix α} (hm : m.WellFormed) (v : String → α) {r : Nat} (hr : r < m.dim) :
    ((m.entries.toList.map fun e => e.value v).drop (r * m.dim)).take m.dim =
      (List.range m.dim).map fun c => m.value v r c := by
  have hsize : m.entries.toList.length = m.dim * m.dim := by
    rw [Array.length_toList]
    exact hm
  have hle : r * m.dim + m.dim ≤ m.dim * m.dim := by
    rw [← Nat.succ_mul]
    exact Nat.mul_le_mul_right _ hr
  refine List.ext_getElem ?_ fun c hc hc' => ?_
  · rw [List.length_take, List.length_drop, List.length_map, hsize, List.length_map,
      List.length_range]
    omega
  · rw [List.length_map, List.length_range] at hc'
    have hlt := place_lt hr hc'
    rw [← hm] at hlt
    simp only [List.getElem_take, List.getElem_drop, List.getElem_map, List.getElem_range,
      Array.getElem_toList]
    rw [value, entry, get?, Array.getElem?_eq_getElem hlt, Option.getD_some]

end GateFusion.GateMatrix
