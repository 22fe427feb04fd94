import Mathlib.Algebra.BigOperators.Intervals
import GateFusion.Proofs.Circuit.Builder
import GateFusion.Proofs.State.Action

/-!
# Stages of the Fourier transform

The gates on the first qubits replace their bits, one qubit after another. At every stage the bits
that have not been treated are still those of the basis state that the circuit started from, and
every treated qubit has contributed one factor to the amplitude: the root of one half, turned by the
controlled phases of the qubits after it.
-/

namespace GateFusion

namespace Statevector
variable {α : Type} [Exact α]

/-- The basis state of an index. -/
def basis (n x : Nat) : Statevector α := ⟨(Array.replicate (2 ^ n) 0).setIfInBounds x 1, n⟩

lemma wellFormed_basis (n x : Nat) : (basis n x : Statevector α).WellFormed := by
  rw [WellFormed, basis, Array.size_setIfInBounds, Array.size_replicate]

lemma amp_basis {n x : Nat} (hx : x < 2 ^ n) (y : Nat) :
    (basis n x : Statevector α).amp y = if y = x then 1 else 0 := by
  have hsize : x < (Array.replicate (2 ^ n) (0 : Cartesian α)).size := by
    rwa [Array.size_replicate]
  rw [amp, basis, Array.getD_eq_getD_getElem?]
  by_cases h : y = x
  · rw [if_pos h, h, Array.getElem?_setIfInBounds_self_of_lt hsize, Option.getD_some]
  · rw [if_neg h, Array.getElem?_setIfInBounds_ne (Ne.symm h), ← Array.getD_eq_getD_getElem?]
    by_cases hy : y < 2 ^ n
    · simp [hy]
    · simp [hy]

end Statevector

namespace Fourier
open Cartesian
variable {n x y : Nat} {v : String → ℝ}

/-- The turn that a control at a distance asks for. -/
noncomputable def turn (distance : Nat) : ℝ :=
  Scalar.pi / ((Nat.pow 2 (min distance 31) : Nat) : ℝ)

/-- The factor of qubit `i` with the controls below `k`. The qubit itself is one of the controls:
its Hadamard gate turns by half a circle where its bit was and stays set. -/
noncomputable def factor (x y i k : Nat) : Cartesian ℝ :=
  real Scalar.invSqrtTwo *
    ∏ j ∈ Finset.Ico i k, if y.testBit i && x.testBit j then polar 1 (turn (j - i)) else 1

/-- The amplitudes when `m` qubits have been treated. -/
noncomputable def stage (n x m y : Nat) : Cartesian ℝ :=
  if y / 2 ^ m = x / 2 ^ m then ∏ i ∈ Finset.range m, factor x y i n else 0

/-- The amplitudes when `m` qubits have been treated, and qubit `m` up to control `k`. -/
noncomputable def within (n x m k y : Nat) : Cartesian ℝ :=
  if y / 2 ^ (m + 1) = x / 2 ^ (m + 1) then
    (∏ i ∈ Finset.range m, factor x y i n) * factor x y m k
  else 0

lemma within_last (n x m : Nat) : within n x m n = stage n x (m + 1) := by
  funext y
  rw [within, stage, Finset.prod_range_succ]

/-- Only the bit of its qubit matters to a factor. -/
lemma factor_congr {y' i : Nat} (h : y.testBit i = y'.testBit i) (k : Nat) :
    factor x y i k = factor x y' i k := by
  rw [factor, factor, h]

/-- Two numbers agree from a bit on if they do at the bit and above it. -/
lemma div_two_pow_eq_iff {m : Nat} : y / 2 ^ m = x / 2 ^ m ↔
    y.testBit m = x.testBit m ∧ y / 2 ^ (m + 1) = x / 2 ^ (m + 1) := by
  have hsplit : ∀ z, z / 2 ^ m = (z.testBit m).toNat + 2 * (z / 2 ^ (m + 1)) := by
    intro z
    rw [Nat.toNat_testBit, Nat.pow_succ, ← Nat.div_div_eq_div_mul]
    omega
  have hinj : ∀ b c : Bool, b.toNat = c.toNat ↔ b = c := by decide
  rw [hsplit y, hsplit x, ← hinj]
  have hy := (y.testBit m).toNat_lt
  have hx := (x.testBit m).toNat_lt
  omega

lemma testBit_of_div_eq {m j : Nat} (h : y / 2 ^ m = x / 2 ^ m) (hj : m ≤ j) :
    y.testBit j = x.testBit j := by
  obtain ⟨d, rfl⟩ := Nat.exists_eq_add_of_le hj
  rw [Nat.add_comm, ← Nat.testBit_div_two_pow, ← Nat.testBit_div_two_pow, h]

lemma testBit_patch_self (m y : Nat) (b : Bool) : (patch [m] y b.toNat).testBit m = b := by
  rw [testBit_patch_of_getElem? (List.nodup_singleton m) (j := 0) rfl]
  cases b <;> rfl

lemma patch_div (m y : Nat) (b : Bool) : patch [m] y b.toNat / 2 ^ (m + 1) = y / 2 ^ (m + 1) := by
  refine Nat.eq_of_testBit_eq fun j => ?_
  have hne : j + (m + 1) ∉ [m] := by simp; omega
  rw [Nat.testBit_div_two_pow, Nat.testBit_div_two_pow, testBit_patch_of_notMem hne]

lemma polar_turn_zero : polar 1 (turn 0) = real (-1 : ℝ) := by
  have hpi : turn 0 = Real.pi := by
    change Real.pi / ((2 ^ 0 : Nat) : ℝ) = Real.pi
    rw [pow_zero, Nat.cast_one, div_one]
  rw [hpi]
  ext
  · change 1 * Real.cos Real.pi = -1
    rw [Real.cos_pi, one_mul]
  · change 1 * Real.sin Real.pi = 0
    rw [Real.sin_pi, mul_zero]

/-- Without controls the factor of a qubit is an entry of the Hadamard matrix. -/
lemma factor_first (x y m : Nat) : factor x y m (m + 1) =
    real (if y.testBit m && x.testBit m then -1 * Scalar.invSqrtTwo
      else 1 * Scalar.invSqrtTwo) := by
  rw [factor, Nat.Ico_succ_singleton, Finset.prod_singleton, Nat.sub_self, polar_turn_zero]
  split
  · rw [real_mul_real, mul_comm]
  · rw [mul_one, one_mul]

/-- The Hadamard gate opens a stage: the two amplitudes that it mixes differ in a bit that is still
the one of the start. -/
lemma placedAct_h (n x m : Nat) :
    placedAct v (stage n x m) (.h, [m]) = within n x m (m + 1) := by
  funext y
  -- with the other bit at the qubit the index is not that of the start from there on
  have hother : stage n x m (patch [m] y (!x.testBit m).toNat) = 0 := by
    rw [stage, if_neg]
    rw [div_two_pow_eq_iff, testBit_patch_self]
    simp
  change act [m] (Quad.hadamard.single.value v) (stage n x m) y = _
  rw [act_hadamard v hother, stage, within]
  have hsame : patch [m] y (x.testBit m).toNat / 2 ^ m = x / 2 ^ m ↔
      y / 2 ^ (m + 1) = x / 2 ^ (m + 1) := by
    rw [div_two_pow_eq_iff, testBit_patch_self, patch_div, and_iff_right rfl]
  have hfactors : ∏ i ∈ Finset.range m, factor x (patch [m] y (x.testBit m).toNat) i n =
      ∏ i ∈ Finset.range m, factor x y i n := by
    refine Finset.prod_congr rfl fun i hi => factor_congr ?_ n
    have hlt := Finset.mem_range.mp hi
    exact testBit_patch_of_notMem (by simp; omega)
  by_cases h : y / 2 ^ (m + 1) = x / 2 ^ (m + 1)
  · rw [if_pos (hsame.mpr h), if_pos h, hfactors, factor_first, mul_comm]
  · rw [if_neg (fun hy => h (hsame.mp hy)), if_neg h, mul_zero]

/-- A controlled phase extends the factor of its qubit by its control. -/
lemma placedAct_cp {m j : Nat} (hj : m < j) : placedAct v (within n x m j)
    (.cp (.constant (turn (j - m))), [j, m]) = within n x m (j + 1) := by
  funext y
  change act [j, m] ((Quad.phase (.constant (turn (j - m)))).controlled.value v) (within n x m j) y
    = _
  rw [act_controlledPhase v hj.ne', within, within]
  by_cases h : y / 2 ^ (m + 1) = x / 2 ^ (m + 1)
  · rw [if_pos h, if_pos h, testBit_of_div_eq h hj, factor, factor,
      Finset.prod_Ico_succ_top hj.le, Bool.and_comm]
    ring
  · rw [if_neg h, if_neg h, mul_zero]

/-- Before the first gate the state is the one of the start. -/
lemma stage_zero (hx : x < 2 ^ n) : stage n x 0 = (Statevector.basis n x : Statevector ℝ).amp := by
  funext y
  rw [stage, Statevector.amp_basis hx, pow_zero, Nat.div_one, Nat.div_one, Finset.range_zero,
    Finset.prod_empty]

/-- The gates on one qubit. -/
noncomputable def qubitPlacements (n i : Nat) : List (Circuit.Placement ℝ) :=
  (.h, [i]) :: (List.range' (i + 1) (n - (i + 1))).map fun j =>
    (.cp (.constant (turn (j - i))), [j, i])

lemma foldl_controls (n x m k : Nat) :
    ((List.range' (m + 1) k).map fun j =>
      ((.cp (.constant (turn (j - m))), [j, m]) : Circuit.Placement ℝ)).foldl (placedAct v)
        (within n x m (m + 1)) = within n x m (m + 1 + k) := by
  induction k with
  | zero => rfl
  | succ k ih =>
    rw [List.range'_1_concat, List.map_append, List.foldl_append, ih]
    exact placedAct_cp (by omega)

/-- The gates on a qubit lead from one stage to the next. -/
lemma foldl_qubitPlacements {m : Nat} (hm : m < n) :
    (qubitPlacements n m).foldl (placedAct v) (stage n x m) = stage n x (m + 1) := by
  have hlast : m + 1 + (n - (m + 1)) = n := by omega
  rw [qubitPlacements, List.foldl_cons, placedAct_h, foldl_controls, hlast, within_last]

/-- All gates before the swaps. -/
theorem foldl_phases {m : Nat} (hm : m ≤ n) :
    ((List.range m).flatMap (qubitPlacements n)).foldl (placedAct v) (stage n x 0) =
      stage n x m := by
  induction m with
  | zero => rfl
  | succ m ih =>
    rw [List.range_succ, List.flatMap_append, List.foldl_append, ih (by omega),
      List.flatMap_singleton]
    exact foldl_qubitPlacements hm

end Fourier
end GateFusion
