import Mathlib.Data.List.Nodup
import Mathlib.Data.Nat.Bitwise
import GateFusion.Matrix.Basic
import GateFusion.Simulation.Statevector

/-!
# Bits of an index

A gate reads the bits of an amplitude index at its qubits and may replace them. Indices are compared
bit by bit.
-/

namespace GateFusion
open GateMatrix Statevector

lemma testBit_gather (ps : List Nat) (i j : Nat) :
    (gather ps i).testBit j = ((ps[j]?).map i.testBit).getD false := by
  induction ps generalizing j with
  | nil => simp [gather]
  | cons p ps ih =>
    rw [gather]
    have hlow : i / Nat.pow 2 p % 2 < 2 := Nat.mod_lt _ Nat.two_pos
    cases j with
    | zero =>
      rw [Nat.testBit_zero, Nat.add_mul_mod_self_left, Nat.mod_mod]
      simp [Nat.testBit_eq_decide_div_mod_eq]
    | succ j =>
      rw [Nat.testBit_succ, Nat.add_mul_div_left _ _ Nat.two_pos, Nat.div_eq_of_lt hlow,
        Nat.zero_add, ih, List.getElem?_cons_succ]

lemma gather_lt (ps : List Nat) (i : Nat) : gather ps i < 2 ^ ps.length := by
  induction ps with
  | nil => simp [gather]
  | cons p ps ih =>
    have hlow : i / Nat.pow 2 p % 2 < 2 := Nat.mod_lt _ Nat.two_pos
    rw [gather, List.length_cons, Nat.pow_succ]
    omega

lemma testBit_scatter (qs : List Qubit) (j b : Nat) :
    (scatter qs j).testBit b = true ↔ ∃ i, qs[i]? = some b ∧ j.testBit i = true := by
  induction qs generalizing j with
  | nil => simp [scatter]
  | cons q qs ih =>
    rw [scatter, Nat.testBit_or, Bool.or_eq_true, ih]
    have hfirst : (if j % 2 = 1 then Nat.pow 2 q else 0).testBit b = true ↔
        q = b ∧ j.testBit 0 = true := by
      rw [Nat.testBit_zero]
      split
      · rename_i h
        simp [Nat.testBit_two_pow, h]
      · rename_i h
        simp [h]
    rw [hfirst]
    constructor
    · rintro (⟨rfl, h⟩ | ⟨i, hi, h⟩)
      · exact ⟨0, rfl, h⟩
      · exact ⟨i + 1, hi, by rwa [Nat.testBit_succ]⟩
    · rintro ⟨i, hi, h⟩
      cases i with
      | zero => exact Or.inl ⟨Option.some.inj hi, h⟩
      | succ i => exact Or.inr ⟨i, hi, by rwa [Nat.testBit_succ] at h⟩

/-- The index whose bits at the qubits are all set. -/
def maskBits (qs : List Qubit) : Nat := scatter qs (2 ^ qs.length - 1)

/-- An index with its bits at the qubits replaced by those of a gate-local index. -/
def patch (qs : List Qubit) (i c : Nat) : Nat := (i ^^^ (i &&& maskBits qs)) ||| scatter qs c

section Patch
variable {qs : List Qubit} {i c b : Nat}

lemma testBit_maskBits : (maskBits qs).testBit b = decide (b ∈ qs) := by
  rw [Bool.eq_iff_iff, decide_eq_true_eq, maskBits, testBit_scatter, List.mem_iff_getElem?]
  refine exists_congr fun j => and_iff_left_of_imp fun hj => ?_
  obtain ⟨hlt, -⟩ := List.getElem?_eq_some_iff.mp hj
  rw [Nat.testBit_two_pow_sub_one, decide_eq_true hlt]

lemma testBit_patch_of_notMem (hb : b ∉ qs) : (patch qs i c).testBit b = i.testBit b := by
  have hscatter : (scatter qs c).testBit b = false := by
    rw [← Bool.not_eq_true, testBit_scatter]
    rintro ⟨j, hj, -⟩
    exact hb (List.mem_of_getElem? hj)
  rw [patch, Nat.testBit_or, hscatter, Bool.or_false, Nat.testBit_xor, Nat.testBit_and,
    testBit_maskBits, decide_eq_false hb, Bool.and_false, Bool.xor_false]

lemma testBit_patch_of_getElem? (hn : qs.Nodup) {j : Nat} (hj : qs[j]? = some b) :
    (patch qs i c).testBit b = c.testBit j := by
  have hscatter : (scatter qs c).testBit b = c.testBit j := by
    rw [Bool.eq_iff_iff, testBit_scatter]
    constructor
    · rintro ⟨j', hj', h⟩
      obtain ⟨hlt, heq⟩ := List.getElem?_eq_some_iff.mp hj
      obtain ⟨hlt', heq'⟩ := List.getElem?_eq_some_iff.mp hj'
      rwa [(hn.getElem_inj_iff).mp (heq'.trans heq.symm)] at h
    · exact fun h => ⟨j, hj, h⟩
  rw [patch, Nat.testBit_or, hscatter, Nat.testBit_xor, Nat.testBit_and, testBit_maskBits,
    decide_eq_true (List.mem_of_getElem? hj), Bool.and_true, Bool.xor_self, Bool.false_or]

/-- Indices are equal if they agree at the qubits and elsewhere. -/
lemma eq_of_testBit (qs : List Qubit) {x y : Nat}
    (hon : ∀ (j b : Nat), qs[j]? = some b → x.testBit b = y.testBit b)
    (hoff : ∀ b, b ∉ qs → x.testBit b = y.testBit b) : x = y := by
  refine Nat.eq_of_testBit_eq fun b => ?_
  by_cases hb : b ∈ qs
  · obtain ⟨j, hj⟩ := List.mem_iff_getElem?.mp hb
    exact hon j b hj
  · exact hoff b hb

lemma gather_patch (hn : qs.Nodup) (hc : c < 2 ^ qs.length) : gather qs (patch qs i c) = c := by
  refine Nat.eq_of_testBit_eq fun j => ?_
  rw [testBit_gather]
  cases hj : qs[j]? with
  | none =>
    have hle := List.getElem?_eq_none_iff.mp hj
    exact (Nat.testBit_lt_two_pow (hc.trans_le (Nat.pow_le_pow_right Nat.two_pos hle))).symm
  | some b => rw [Option.map_some, Option.getD_some, testBit_patch_of_getElem? hn hj]

lemma patch_gather (hn : qs.Nodup) : patch qs i (gather qs i) = i := by
  refine eq_of_testBit qs (fun j b hj => ?_) fun b hb => testBit_patch_of_notMem hb
  rw [testBit_patch_of_getElem? hn hj, testBit_gather, hj, Option.map_some, Option.getD_some]

lemma patch_patch (hn : qs.Nodup) (c' : Nat) : patch qs (patch qs i c) c' = patch qs i c' := by
  refine eq_of_testBit qs (fun j b hj => ?_) fun b hb => ?_
  · rw [testBit_patch_of_getElem? hn hj, testBit_patch_of_getElem? hn hj]
  · rw [testBit_patch_of_notMem hb, testBit_patch_of_notMem hb, testBit_patch_of_notMem hb]

lemma patch_lt {n : Nat} (hq : ∀ q ∈ qs, q < n) (hi : i < 2 ^ n) :
    patch qs i c < 2 ^ n := by
  refine Nat.lt_pow_two_of_testBit _ fun b hb => ?_
  have hnot : b ∉ qs := fun h => Nat.not_lt.mpr hb (hq b h)
  rw [testBit_patch_of_notMem hnot]
  exact Nat.testBit_lt_two_pow (hi.trans_le (Nat.pow_le_pow_right Nat.two_pos hb))

/-- Bits above the qubits stay. -/
lemma lt_of_patch_lt {n : Nat} (hn : qs.Nodup) (hq : ∀ q ∈ qs, q < n) (h : patch qs i c < 2 ^ n) :
    i < 2 ^ n := by
  rw [← patch_gather (i := i) hn, ← patch_patch (c := c) hn]
  exact patch_lt hq h

section Disjoint
variable {qs' : List Qubit} (hd : ∀ q ∈ qs, q ∉ qs')
include hd

/-- Bits at other qubits stay. -/
lemma gather_patch_of_disjoint : gather qs' (patch qs i c) = gather qs' i := by
  refine Nat.eq_of_testBit_eq fun j => ?_
  rw [testBit_gather, testBit_gather]
  cases hj : qs'[j]? with
  | none => rfl
  | some b =>
    have hb : b ∉ qs := fun h => hd b h (List.mem_of_getElem? hj)
    rw [Option.map_some, Option.map_some, testBit_patch_of_notMem hb]

lemma patch_comm (hn : qs.Nodup) (hn' : qs'.Nodup) (c' : Nat) :
    patch qs' (patch qs i c) c' = patch qs (patch qs' i c') c := by
  refine eq_of_testBit qs (fun j b hj => ?_) fun b hb => ?_
  · have hb := hd b (List.mem_of_getElem? hj)
    rw [testBit_patch_of_notMem hb, testBit_patch_of_getElem? hn hj,
      testBit_patch_of_getElem? hn hj]
  · rw [testBit_patch_of_notMem hb]
    by_cases hb' : b ∈ qs'
    · obtain ⟨j, hj⟩ := List.mem_iff_getElem?.mp hb'
      rw [testBit_patch_of_getElem? hn' hj, testBit_patch_of_getElem? hn' hj]
    · rw [testBit_patch_of_notMem hb', testBit_patch_of_notMem hb', testBit_patch_of_notMem hb]

end Disjoint

end Patch
end GateFusion
