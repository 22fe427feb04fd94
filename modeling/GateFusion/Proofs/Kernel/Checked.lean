import Mathlib.Data.List.Perm.Subperm
import GateFusion.Proofs.Kernel.Groups
import GateFusion.Proofs.Loops

/-!
# Index arithmetic without overflow

The index arithmetic once more, with a shift by the length of a word or more and a difference below
zero as failures. It never fails for the qubits of a register, and what it gives is the index
arithmetic itself.
-/

namespace GateFusion

namespace Bits

/-- A shift to the left by fewer places than a word has. -/
def shiftLeft? (x : UInt64) (places : Nat) : Option UInt64 :=
  if places < 64 then some (x <<< UInt64.ofNat places) else none

/-- A difference that is not below zero. -/
def sub? (x y : UInt64) : Option UInt64 :=
  if y ≤ x then some (x - y) else none

lemma shiftLeft?_of_lt (x : UInt64) {places : Nat} (h : places < 64) :
    shiftLeft? x places = some (x <<< UInt64.ofNat places) := if_pos h

lemma sub?_eq_some {x y z : UInt64} : sub? x y = some z ↔ y ≤ x ∧ x - y = z := by
  unfold sub?
  split <;> simp [*]

lemma sub?_one {x : UInt64} (h : x ≠ 0) : sub? x 1 = some (x - 1) := by
  refine sub?_eq_some.mpr ⟨?_, rfl⟩
  rw [UInt64.le_iff_toNat_le]
  exact Nat.pos_of_ne_zero fun h0 => h (UInt64.toNat_inj.mp h0)

/-- Bit deposit. That the negation of the remaining mask wraps is intended. -/
def depositFrom? (value remaining bit result : UInt64) : Option UInt64 :=
  if _h : remaining = 0 then some result
  else
    let lowest := remaining &&& (0 - remaining)
    let result := if value &&& bit != 0 then result ||| lowest else result
    match _hrest : sub? remaining 1 with
    | some rest =>
      (shiftLeft? bit 1).bind fun next => depositFrom? value (remaining &&& rest) next result
    | none => none
termination_by remaining.toNat
decreasing_by
  obtain ⟨-, rfl⟩ := sub?_eq_some.mp _hrest
  exact toNat_strike_lt _h

def fullMask? (n : Nat) : Option UInt64 :=
  if 64 ≤ n then some (0 - 1) else (shiftLeft? 1 n).bind fun x => sub? x 1

/-- Every round of a deposit subtracts from a word that is not zero, and shifts by one. -/
lemma depositFrom?_eq (value remaining bit result : UInt64) :
    depositFrom? value remaining bit result = some (depositFrom value remaining bit result) := by
  induction remaining, bit, result using depositFrom.induct value with
  | case1 bit result => rw [depositFrom?, depositFrom, dif_pos rfl, dif_pos rfl]
  | case2 remaining bit result h lowest result' ih =>
    rw [depositFrom?, depositFrom, dif_neg h, dif_neg h]
    dsimp only
    split
    · rename_i rest hrest
      obtain rfl := Option.some.inj ((sub?_one h).symm.trans hrest)
      rw [shiftLeft?_of_lt bit (by decide : 1 < 64), Option.bind_some]
      exact ih
    · rename_i hnone
      rw [sub?_one h] at hnone
      simp at hnone

lemma shiftLeft?_one {n : Nat} (hn : n < 64) : shiftLeft? 1 n = some (Qubit.mask n) :=
  shiftLeft?_of_lt 1 hn

/-- A power of two is not zero as long as it fits a word. -/
lemma mask_ne_zero {n : Nat} (hn : n < 64) : Qubit.mask n ≠ 0 := by
  intro h
  have hpow := toNat_mask hn
  rw [h, UInt64.toNat_zero] at hpow
  exact (Nat.two_pow_pos n).ne hpow

lemma fullMask?_eq (n : Nat) : fullMask? n = some (fullMask n) := by
  unfold fullMask? fullMask
  split
  · rfl
  · rename_i hn
    have hlt : n < 64 := Nat.lt_of_not_le hn
    rw [shiftLeft?_one hlt, Option.bind_some, sub?_one (mask_ne_zero hlt)]
    rfl

end Bits

namespace Indexing
open Bits

def maskOf? (qs : List Qubit) : Option UInt64 :=
  qs.foldlM (fun m q => (shiftLeft? 1 q).map fun bit => m ||| bit) 0

/-- The offset of a gate-local index: for every bit of the index that is set, the bit of its
qubit. -/
def offset? (qs : List Qubit) (j : UInt64) : Option UInt64 :=
  qs.zipIdx.foldlM (fun offset q => (shiftLeft? 1 q.2).bind fun place =>
    if j &&& place != 0 then (shiftLeft? 1 q.1).map fun bit => offset ||| bit
    else some offset) 0

def offsets? (qs : List Qubit) : Option (List UInt64) :=
  (shiftLeft? 1 qs.length).bind fun count =>
    (List.range count.toNat).mapM fun j => offset? qs (UInt64.ofNat j)

def numGroups? (d : Indexing) : Option UInt64 :=
  if d.qubits.length ≤ d.numQubits then shiftLeft? 1 (d.numQubits - d.qubits.length) else none

def insertZero? (base : UInt64) (bit : Nat) : Option UInt64 :=
  (shiftLeft? 1 bit).bind fun place => (sub? place 1).bind fun below =>
    (shiftLeft? (base ^^^ (base &&& below)) 1).map fun high => high ||| (base &&& below)

def baseMasked? (d : Indexing) (group : UInt64) : Option UInt64 :=
  d.sortedBits.foldlM insertZero? group

def baseDeposit? (d : Indexing) (group : UInt64) : Option UInt64 :=
  (fullMask? d.numQubits).bind fun full => depositFrom? group (~~~d.mask &&& full) 1 0

/-- No step shifts by the length of a word or subtracts below zero. -/
structure NoOverflow (d : Indexing) : Prop where
  mask : maskOf? d.qubits = some d.mask
  offsets : offsets? d.qubits = some d.offsets
  numGroups : d.numGroups? = some (UInt64.ofNat d.numGroups)
  baseMasked : ∀ group, d.baseMasked? group = some (d.baseMasked group)
  baseDeposit : ∀ group, d.baseDeposit? group = some (d.baseDeposit group)

/-- A loop whose steps do not fail is the loop over their results. -/
lemma foldlM_eq_some {β γ : Type} {step : γ → β → Option γ} {f : γ → β → γ} {xs : List β}
    (h : ∀ x ∈ xs, ∀ acc, step acc x = some (f acc x)) (acc : γ) :
    xs.foldlM step acc = some (xs.foldl f acc) := by
  induction xs generalizing acc with
  | nil => rfl
  | cons x xs ih =>
    rw [List.foldlM_cons, h x (by simp)]
    exact ih (fun y hy => h y (by simp [hy])) _

section Register
variable {qs : List Qubit}

/-- A register has at least as many qubits as a gate on it. -/
lemma length_le {n : Nat} (hnodup : qs.Nodup) (hq : ∀ q ∈ qs, q < n) : qs.length ≤ n := by
  have hsub : ∀ q ∈ qs, q ∈ List.range n := fun q hmem => List.mem_range.mpr (hq q hmem)
  simpa using (List.subperm_of_subset hnodup hsub).length_le

lemma maskOf?_eq (hq : ∀ q ∈ qs, q < 64) : maskOf? qs = some (Qubit.maskOf qs) :=
  foldlM_eq_some (fun q hmem acc => by rw [shiftLeft?_one (hq q hmem), Option.map_some]) 0

/-- The qubits from place `i` on contribute the bits of the index from bit `i` on. -/
lemma foldlM_zipIdx_offset (hq : ∀ q ∈ qs, q < 64) (j : UInt64) {i : Nat}
    (hi : i + qs.length ≤ 64) (acc : UInt64) :
    (qs.zipIdx i).foldlM (fun offset q => (shiftLeft? 1 q.2).bind fun place =>
      if j &&& place != 0 then (shiftLeft? 1 q.1).map fun bit => offset ||| bit
      else some offset) acc = some (acc ||| offset qs (j.toNat >>> i)) := by
  induction qs generalizing i acc with
  | nil => simp [offset]
  | cons q qs ih =>
    rw [List.length_cons] at hi
    have hlt : i < 64 := by omega
    have hplace : (Qubit.mask i).toNat = 2 ^ i % 2 ^ 64 := by
      rw [toNat_mask hlt, Nat.mod_eq_of_lt (Nat.pow_lt_pow_right (by omega) hlt)]
    have hrest := fun acc => ih (fun r hr => hq r (by simp [hr])) (i := i + 1) (by omega) acc
    rw [List.zipIdx_cons, List.foldlM_cons, shiftLeft?_one hlt, Option.bind_some,
      and_bit_ne_zero hplace, shiftLeft?_one (hq q (by simp)), offset, ← Nat.shiftRight_succ]
    by_cases hodd : j.toNat >>> i % 2 = 1
    · rw [decide_eq_true hodd, if_pos rfl, if_pos hodd, ← UInt64.or_assoc]
      exact hrest _
    · rw [decide_eq_false hodd, if_neg Bool.false_ne_true, if_neg hodd, UInt64.zero_or]
      exact hrest _

lemma offset?_eq (hq : ∀ q ∈ qs, q < 64) (hlen : qs.length ≤ 64) (j : UInt64) :
    offset? qs j = some (offset qs j.toNat) := by
  have h := foldlM_zipIdx_offset hq j (i := 0) (by omega) 0
  rwa [UInt64.zero_or, Nat.shiftRight_zero] at h

lemma offsets?_eq (hq : ∀ q ∈ qs, q < 64) (hlen : qs.length < 64) :
    offsets? qs = some ((List.range (2 ^ qs.length)).map (offset qs)) := by
  unfold offsets?
  rw [shiftLeft?_one hlen, Option.bind_some, toNat_mask hlen]
  have hoffset : ∀ j ∈ List.range (2 ^ qs.length), ∀ y,
      offset? qs (UInt64.ofNat j) = some y ↔ True ∧ y = offset qs j := by
    intro j hj y
    have hword : (UInt64.ofNat j).toNat = j := UInt64.toNat_ofNat_of_lt'
      ((List.mem_range.mp hj).trans (Nat.pow_lt_pow_right (by omega) hlen))
    rw [offset?_eq hq hlen.le, hword, true_and, Option.some.injEq, eq_comm]
  exact (mapM_eq_some hoffset).mpr ⟨fun _ _ => trivial, rfl⟩

end Register

lemma insertZero?_eq (base : UInt64) {bit : Nat} (h : bit < 64) :
    insertZero? base bit = some (insertZero base bit) := by
  unfold insertZero?
  rw [shiftLeft?_one h, Option.bind_some, sub?_one (mask_ne_zero h), Option.bind_some,
    shiftLeft?_of_lt _ (by decide : 1 < 64), Option.map_some]
  rfl

/-- The index arithmetic of distinct qubits of a register does not overflow. -/
theorem noOverflow_of_ofQubits {α : Type} {qs : List Qubit} {n : Nat} {d : Indexing}
    (hnodup : qs.Nodup) (h : ofQubits (α := α) qs n = .ok d) : NoOverflow d := by
  obtain ⟨hn, hq, rfl⟩ := ofQubits_eq_ok.mp h
  unfold maxIndexWidth at hn
  have hq64 : ∀ q ∈ qs, q < 64 := fun q hmem => (hq q hmem).trans_le (by omega : n ≤ 64)
  have hlen := length_le hnodup hq
  have hgroups : n - qs.length < 64 := by omega
  have harity : qs.length < 64 := by omega
  refine ⟨maskOf?_eq hq64, offsets?_eq hq64 harity, ?_, fun group => ?_, fun group => ?_⟩
  · unfold numGroups?
    rw [if_pos hlen, shiftLeft?_one hgroups]
    refine congrArg some (UInt64.toNat_inj.mp ?_)
    have hlt : 2 ^ (n - qs.length) < 2 ^ 64 := Nat.pow_lt_pow_right (by omega) hgroups
    rw [toNat_mask hgroups]
    exact (UInt64.toNat_ofNat_of_lt' hlt).symm
  · refine foldlM_eq_some (fun bit hbit acc => insertZero?_eq acc ?_) group
    exact hq64 bit ((List.mergeSort_perm qs _).mem_iff.mp hbit)
  · unfold baseDeposit?
    rw [fullMask?_eq, Option.bind_some, depositFrom?_eq]
    rfl

end Indexing
end GateFusion
