import GateFusion.Proofs.Conjugate
import GateFusion.Proofs.State.Reorder

/-!
# Norms of states

A matrix with orthonormal columns keeps the sum of the squared amplitudes of every group it acts on,
and the groups of a gate make up the state. So gates with such matrices preserve the norm, in any
number and on any qubits.
-/

namespace GateFusion
open Cartesian GateMatrix
variable {α : Type} [Exact α]

/-- A matrix over `k` qubits whose columns are orthonormal. -/
def Unitary (k : Nat) (m : Nat → Nat → Cartesian α) : Prop :=
  ∀ c d, c < 2 ^ k → d < 2 ^ k →
    ∑ r ∈ Finset.range (2 ^ k), conj (m r c) * m r d = if c = d then 1 else 0

/-- Orthonormal columns preserve the norm of what they are combined with. -/
theorem Unitary.sum_normSq {k : Nat} {m : Nat → Nat → Cartesian α} (hm : Unitary k m)
    (x : Nat → Cartesian α) :
    ∑ r ∈ Finset.range (2 ^ k), (∑ c ∈ Finset.range (2 ^ k), m r c * x c).normSq =
      ∑ c ∈ Finset.range (2 ^ k), (x c).normSq := by
  have hexpand : ∀ r, conj (∑ c ∈ Finset.range (2 ^ k), m r c * x c) *
      ∑ d ∈ Finset.range (2 ^ k), m r d * x d =
        ∑ c ∈ Finset.range (2 ^ k), ∑ d ∈ Finset.range (2 ^ k),
          conj (x c) * x d * (conj (m r c) * m r d) := by
    intro r
    rw [map_sum, Finset.sum_mul_sum]
    refine Finset.sum_congr rfl fun c _ => Finset.sum_congr rfl fun d _ => ?_
    rw [map_mul]
    ring
  have hcolumns : ∀ c ∈ Finset.range (2 ^ k), ∑ r ∈ Finset.range (2 ^ k),
      ∑ d ∈ Finset.range (2 ^ k), conj (x c) * x d * (conj (m r c) * m r d) =
        conj (x c) * x c := by
    intro c hc
    rw [Finset.sum_comm]
    have hpair : ∀ d ∈ Finset.range (2 ^ k), ∑ r ∈ Finset.range (2 ^ k),
        conj (x c) * x d * (conj (m r c) * m r d) =
          if c = d then conj (x c) * x d else 0 := by
      intro d hd
      rw [← Finset.mul_sum, hm c d (Finset.mem_range.mp hc) (Finset.mem_range.mp hd)]
      split
      · rw [mul_one]
      · rw [mul_zero]
    rw [Finset.sum_congr rfl hpair, Finset.sum_ite_eq, if_pos hc]
  have hreal := calc
    real (∑ r ∈ Finset.range (2 ^ k), (∑ c ∈ Finset.range (2 ^ k), m r c * x c).normSq)
      = ∑ r ∈ Finset.range (2 ^ k), ∑ c ∈ Finset.range (2 ^ k), ∑ d ∈ Finset.range (2 ^ k),
          conj (x c) * x d * (conj (m r c) * m r d) := by
        rw [real_sum_normSq]
        exact Finset.sum_congr rfl fun r _ => hexpand r
    _ = ∑ c ∈ Finset.range (2 ^ k), conj (x c) * x c := by
        rw [Finset.sum_comm]
        exact Finset.sum_congr rfl hcolumns
    _ = real (∑ c ∈ Finset.range (2 ^ k), (x c).normSq) := (real_sum_normSq _ _).symm
  exact congrArg Cartesian.re hreal

section Groups
variable {qs : List Qubit} (hn : qs.Nodup) {n : Nat} (hq : ∀ q ∈ qs, q < n)
include hn hq

omit [Exact α] in
/-- The indices of a state, group by group. -/
lemma sum_range_groups {M : Type} [AddCommMonoid M] (f : Nat → M) :
    ∑ i ∈ Finset.range (2 ^ n), f i =
      ∑ b ∈ (Finset.range (2 ^ n)).filter (gather qs · = 0),
        ∑ c ∈ Finset.range (2 ^ qs.length), f (patch qs b c) := by
  rw [← Finset.sum_product']
  refine Finset.sum_nbij' (fun i => (patch qs i 0, gather qs i)) (fun p => patch qs p.1 p.2)
    ?_ ?_ ?_ ?_ ?_
  · intro i hi
    rw [Finset.mem_range] at hi
    rw [Finset.mem_product, Finset.mem_filter, Finset.mem_range, Finset.mem_range]
    exact ⟨⟨patch_lt hq hi, gather_patch hn (Nat.two_pow_pos _)⟩, gather_lt qs i⟩
  · rintro ⟨b, c⟩ hp
    rw [Finset.mem_product, Finset.mem_filter, Finset.mem_range] at hp
    exact Finset.mem_range.mpr (patch_lt hq hp.1.1)
  · intro i _
    rw [patch_patch hn, patch_gather hn]
  · rintro ⟨b, c⟩ hp
    rw [Finset.mem_product, Finset.mem_filter, Finset.mem_range, Finset.mem_range] at hp
    obtain ⟨⟨-, hb⟩, hc⟩ := hp
    have hbase : patch qs b 0 = b := by rw [← hb, patch_gather hn]
    rw [patch_patch hn, hbase, gather_patch hn hc]
  · intro i _
    rw [patch_patch hn, patch_gather hn]

/-- A unitary matrix on some qubits of a state preserves its norm. -/
theorem sum_normSq_act {m : Nat → Nat → Cartesian α} (hm : Unitary qs.length m)
    (amp : Nat → Cartesian α) : ∑ i ∈ Finset.range (2 ^ n), (act qs m amp i).normSq =
      ∑ i ∈ Finset.range (2 ^ n), (amp i).normSq := by
  rw [sum_range_groups hn hq, sum_range_groups hn hq fun i => (amp i).normSq]
  refine Finset.sum_congr rfl fun b _ => ?_
  rw [← hm.sum_normSq fun c => amp (patch qs b c)]
  refine Finset.sum_congr rfl fun r hr => ?_
  rw [act, gather_patch hn (Finset.mem_range.mp hr)]
  simp only [patch_patch hn]

end Groups

/-- Unitary gates preserve the norm of a state, one after another. -/
theorem sum_normSq_applyAll {n : Nat} (v : String → α) {gates : List (Gate α)}
    (hgates : ∀ gate ∈ gates, gate.qubits.Nodup ∧ (∀ q ∈ gate.qubits, q < n) ∧
      Unitary gate.qubits.length (gate.matrix.value v)) (amp : Nat → Cartesian α) :
    ∑ i ∈ Finset.range (2 ^ n), (applyAll v gates amp i).normSq =
      ∑ i ∈ Finset.range (2 ^ n), (amp i).normSq := by
  induction gates generalizing amp with
  | nil => rfl
  | cons gate gates ih =>
    obtain ⟨hn, hq, hm⟩ := hgates gate (by simp)
    rw [applyAll_cons, ih fun k hk => hgates k (by simp [hk])]
    exact sum_normSq_act hn hq hm amp

/-- The squared norm of a state is the sum over its indices. -/
lemma Statevector.normSq_eq {s : Statevector α} (hs : s.WellFormed) :
    s.normSq = ∑ i ∈ Finset.range (2 ^ s.numQubits), (s.amp i).normSq := by
  have hlist : s.amplitudes.toList.map Cartesian.normSq =
      (List.range (2 ^ s.numQubits)).map fun i => (s.amp i).normSq := by
    rw [← hs]
    refine List.ext_getElem (by simp) fun i hi _ => ?_
    rw [List.length_map, Array.length_toList] at hi
    simp [Statevector.amp, hi]
  rw [Statevector.normSq, Scalar.sum_eq, hlist, Statevector.sum_range_eq]

end GateFusion
