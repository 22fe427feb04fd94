import GateFusion.Proofs.Kernel.Deposit
import GateFusion.Kernel.Indexing

/-!
# Amplitude groups

The bases of the groups are the numbers whose bits at the target qubits are clear: each is the
deposit of exactly one group number into the bits left free.
-/

namespace GateFusion
open GateMatrix Statevector

/-- There is index arithmetic for the qubits of a register that fits an index. -/
theorem Indexing.ofQubits_eq_ok {α : Type} {qs : List Qubit} {n : Nat} {d : Indexing} :
    ofQubits (α := α) qs n = .ok d ↔ n ≤ maxIndexWidth ∧ (∀ q ∈ qs, q < n) ∧
      d = ⟨n, qs, qs.mergeSort, Qubit.maskOf qs,
        (List.range (2 ^ qs.length)).map (offset qs)⟩ := by
  unfold ofQubits
  constructor
  · intro h
    split at h
    · simp at h
    · rename_i hwidth
      split at h
      · simp at h
      · rename_i hfind
        refine ⟨Nat.le_of_not_lt hwidth, fun q hq => ?_, (Except.ok.inj h).symm⟩
        simpa using List.find?_eq_none.mp hfind q hq
  · rintro ⟨hwidth, hq, rfl⟩
    have hfind : qs.find? (fun q => decide (n ≤ q)) = none :=
      List.find?_eq_none.mpr fun q hmem => by simpa using hq q hmem
    rw [if_neg (Nat.not_lt.mpr hwidth), hfind]
    rfl

section Words
variable {qs : List Qubit}

lemma toNat_mask {q : Qubit} (hq : q < 64) : (Qubit.mask q).toNat = 2 ^ q := by
  have hlt : 2 ^ q < 2 ^ 64 := Nat.pow_lt_pow_right (by omega) hq
  have hone : (1 : UInt64).toNat = 1 := rfl
  have hq' : (UInt64.ofNat q).toNat % 64 = q := by
    rw [UInt64.toNat_ofNat_of_lt' (hq.trans (by decide)), Nat.mod_eq_of_lt hq]
  rw [Qubit.mask, UInt64.toNat_shiftLeft, hone, hq', Nat.shiftLeft_eq, Nat.one_mul,
    Nat.mod_eq_of_lt hlt]

lemma testBit_maskOf (hq : ∀ q ∈ qs, q < 64) (b : Nat) :
    (Qubit.maskOf qs).toNat.testBit b = decide (b ∈ qs) := by
  have hfold : ∀ (qs : List Qubit) (m : UInt64), (∀ q ∈ qs, q < 64) →
      (qs.foldl (fun m q => m ||| Qubit.mask q) m).toNat.testBit b =
        (m.toNat.testBit b || decide (b ∈ qs)) := by
    intro qs
    induction qs with
    | nil => simp
    | cons q qs ih =>
      intro m hq
      rw [List.foldl_cons, ih _ fun r hr => hq r (by simp [hr]), UInt64.toNat_or, Nat.testBit_or,
        toNat_mask (hq q (by simp)), Nat.testBit_two_pow, Bool.or_assoc]
      simp [eq_comm]
  rw [Qubit.maskOf, hfold qs 0 hq, UInt64.toNat_zero, Nat.zero_testBit, Bool.false_or]

/-- The offset of a gate-local index scatters its bits over the qubits. -/
lemma toNat_offset (hq : ∀ q ∈ qs, q < 64) (j : Nat) :
    (Indexing.offset qs j).toNat = scatter qs j := by
  induction qs generalizing j with
  | nil => rfl
  | cons q qs ih =>
    rw [Indexing.offset, scatter, UInt64.toNat_or, ih fun r hr => hq r (by simp [hr])]
    split
    · rw [toNat_mask (hq q (by simp))]
      rfl
    · rfl

lemma toNat_fullMask {n : Nat} (hn : n < 64) : (Bits.fullMask n).toNat = 2 ^ n - 1 := by
  have hle : (1 : UInt64) ≤ Qubit.mask n := by
    rw [UInt64.le_iff_toNat_le, toNat_mask hn]
    exact Nat.two_pow_pos n
  have hmask := UInt64.toNat_sub_of_le _ _ hle
  rw [toNat_mask hn] at hmask
  rw [Bits.fullMask, if_neg (by omega)]
  exact hmask

/-- The bits left free are those below `n` that are no target. -/
lemma mem_setBits_free {n : Nat} (hn : n < 64) (hq : ∀ q ∈ qs, q < 64) {b : Nat} :
    b ∈ Bits.setBits (~~~Qubit.maskOf qs &&& Bits.fullMask n).toNat ↔ b < n ∧ b ∉ qs := by
  have hnot : ∀ b < 64, (~~~Qubit.maskOf qs).toNat.testBit b = decide (b ∉ qs) := by
    intro b hb
    have hsize : (~~~Qubit.maskOf qs).toNat = 2 ^ 64 - ((Qubit.maskOf qs).toNat + 1) := by
      rw [UInt64.toNat_not, Nat.sub_add_eq, Nat.sub_right_comm]
      rfl
    rw [hsize, Nat.testBit_two_pow_sub_succ (Qubit.maskOf qs).toNat_lt, testBit_maskOf hq,
      decide_eq_true hb, Bool.true_and, decide_not]
  rw [Bits.setBits, List.mem_filter, List.mem_range, UInt64.toNat_and, Nat.testBit_and,
    toNat_fullMask hn, Nat.testBit_two_pow_sub_one]
  constructor
  · rintro ⟨hb, h⟩
    rw [hnot b hb, Bool.and_eq_true, decide_eq_true_iff, decide_eq_true_iff] at h
    exact ⟨h.2, h.1⟩
  · rintro ⟨hlt, hout⟩
    rw [hnot b (hlt.trans hn), decide_eq_true hout, decide_eq_true hlt]
    exact ⟨hlt.trans hn, rfl⟩

end Words

section Bases
variable {qs free : List Qubit} {n : Nat} (hn : qs.Nodup) (hq : ∀ q ∈ qs, q < n)
  (hfree : ∀ b, b ∈ free ↔ b < n ∧ b ∉ qs) (hnodup : free.Nodup)
include hfree hnodup

include hn hq in
lemma length_free : free.length = n - qs.length := by
  have hperm : (qs ++ free).Perm (List.range n) := by
    refine (List.perm_ext_iff_of_nodup ?_ List.nodup_range).mpr fun b => ?_
    · refine List.nodup_append.mpr ⟨hn, hnodup, ?_⟩
      rintro b hb c hc rfl
      exact ((hfree b).mp hc).2 hb
    · rw [List.mem_append, hfree, List.mem_range]
      constructor
      · rintro (h | h)
        · exact hq b h
        · exact h.1
      · intro h
        by_cases hb : b ∈ qs
        · exact Or.inl hb
        · exact Or.inr ⟨h, hb⟩
  have hlen := hperm.length_eq
  rw [List.length_append, List.length_range] at hlen
  omega

omit hfree in
lemma gather_scatter {c : Nat} (hc : c < 2 ^ free.length) : gather free (scatter free c) = c := by
  have hpatch : patch free 0 c = scatter free c := by
    rw [patch, Nat.zero_and, Nat.xor_zero, Nat.zero_or]
  rw [← hpatch, gather_patch hnodup hc]

/-- Scattering numbers over the free bits gives every base, and no base twice. -/
lemma bases_spec : ((List.range (2 ^ free.length)).map (scatter free)).Nodup ∧
    ∀ i, i ∈ (List.range (2 ^ free.length)).map (scatter free) ↔
      i < 2 ^ n ∧ i &&& maskBits qs = 0 := by
  have hpatch : ∀ c, patch free 0 c = scatter free c := by
    intro c
    rw [patch, Nat.zero_and, Nat.xor_zero, Nat.zero_or]
  refine ⟨List.Nodup.map_on ?_ List.nodup_range, fun i => ?_⟩
  · intro c hc d hd heq
    have h := congrArg (gather free) heq
    rwa [gather_scatter hnodup (List.mem_range.mp hc),
      gather_scatter hnodup (List.mem_range.mp hd)] at h
  · rw [List.mem_map]
    constructor
    · rintro ⟨c, -, rfl⟩
      rw [← hpatch]
      refine ⟨patch_lt (fun b hb => ((hfree b).mp hb).1) (Nat.two_pow_pos n), ?_⟩
      refine Nat.eq_of_testBit_eq fun b => ?_
      rw [Nat.testBit_and, testBit_maskBits, Nat.zero_testBit]
      by_cases hb : b ∈ qs
      · rw [testBit_patch_of_notMem fun h => ((hfree b).mp h).2 hb, Nat.zero_testBit,
          Bool.false_and]
      · rw [decide_eq_false hb, Bool.and_false]
    · rintro ⟨hlt, hclear⟩
      refine ⟨gather free i, List.mem_range.mpr (gather_lt free i), ?_⟩
      rw [← hpatch]
      refine eq_of_testBit free (fun j b hj => ?_) fun b hb => ?_
      · rw [testBit_patch_of_getElem? hnodup hj, testBit_gather, hj, Option.map_some,
          Option.getD_some]
      · rw [testBit_patch_of_notMem hb, Nat.zero_testBit]
        rw [hfree, not_and_or, not_not] at hb
        rcases hb with hb | hb
        · exact (Nat.testBit_lt_two_pow
            (hlt.trans_le (Nat.pow_le_pow_right Nat.two_pos (Nat.le_of_not_lt hb)))).symm
        · have h := congrArg (·.testBit b) hclear
          simpa [testBit_maskBits, hb] using h.symm

end Bases

/-- The bases of the groups, in the order of their numbers. -/
def groupBases (n : Nat) (qs : List Qubit) : List Nat :=
  (List.range (2 ^ (n - qs.length))).map fun group =>
    (Bits.deposit (UInt64.ofNat group) (~~~Qubit.maskOf qs &&& Bits.fullMask n)).toNat

/-- Every index below `2 ^ n` whose bits at the targets are clear is the base of one group. -/
theorem groupBases_spec {qs : List Qubit} {n : Nat} (hn : n ≤ maxIndexWidth) (hnodup : qs.Nodup)
    (hq : ∀ q ∈ qs, q < n) : (groupBases n qs).Nodup ∧
      ∀ i, i ∈ groupBases n qs ↔ i < 2 ^ n ∧ i &&& maskBits qs = 0 := by
  unfold maxIndexWidth at hn
  have hfree := fun b => mem_setBits_free (n := n) (b := b) (by omega)
    fun q hmem => (hq q hmem).trans_le (by omega : n ≤ 64)
  have hfreeNodup : (Bits.setBits (~~~Qubit.maskOf qs &&& Bits.fullMask n).toNat).Nodup :=
    List.nodup_range.filter _
  have hlen := length_free hnodup hq hfree hfreeNodup
  have hbases := bases_spec hfree hfreeNodup
  rw [hlen] at hbases
  have hmap : groupBases n qs = (List.range (2 ^ (n - qs.length))).map
      (scatter (Bits.setBits (~~~Qubit.maskOf qs &&& Bits.fullMask n).toNat)) := by
    refine List.map_congr_left fun group hgroup => ?_
    have hlt : group < 2 ^ 64 := (List.mem_range.mp hgroup).trans_le
      (Nat.pow_le_pow_right Nat.two_pos (by omega))
    rw [Bits.toNat_deposit, UInt64.toNat_ofNat_of_lt' hlt]
  rw [hmap]
  exact hbases

end GateFusion
