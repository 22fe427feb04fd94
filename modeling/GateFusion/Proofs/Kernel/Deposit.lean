import GateFusion.Kernel.Bits
import GateFusion.Proofs.State.Bits
import Mathlib.Data.Nat.Find

/-!
# Bit deposit

Depositing strikes the set bits of the mask one by one from the lowest up, so bit `j` of the value
goes to the place of the `j`-th set bit.
-/

namespace GateFusion.Bits
open Statevector

/-- The places of the set bits of a word, ascending. -/
def setBits (m : Nat) : List Nat := (List.range 64).filter m.testBit

section Lowest
variable {r b : Nat}

lemma exists_lowest (hr : r ≠ 0) : ∃ b, r.testBit b = true ∧ ∀ i < b, r.testBit i = false := by
  have hex := Nat.exists_testBit_of_ne_zero hr
  refine ⟨Nat.find hex, Nat.find_spec hex, fun i hi => ?_⟩
  rw [← Bool.not_eq_true]
  exact Nat.find_min hex hi

variable (hb : r.testBit b = true) (hlow : ∀ i < b, r.testBit i = false)
include hb hlow

/-- Subtracting one clears the lowest set bit and sets those below. -/
lemma testBit_sub_one (i : Nat) :
    (r - 1).testBit i = (decide (i < b) || (decide (i ≠ b) && r.testBit i)) := by
  have hmod : r % 2 ^ (b + 1) = 2 ^ b := by
    refine Nat.eq_of_testBit_eq fun i => ?_
    rw [Nat.testBit_mod_two_pow, Nat.testBit_two_pow]
    rcases Nat.lt_trichotomy i b with hi | rfl | hi
    · rw [hlow i hi, Bool.and_false, decide_eq_false (by omega)]
    · rw [hb, decide_eq_true (by omega), decide_eq_true rfl, Bool.and_true]
    · rw [decide_eq_false (by omega), decide_eq_false (by omega), Bool.false_and]
  have hpos := Nat.two_pow_pos b
  have hlt : 2 ^ b - 1 < 2 ^ (b + 1) := by
    rw [Nat.pow_succ]
    omega
  have hsplit : r - 1 = 2 ^ (b + 1) * (r / 2 ^ (b + 1)) + (2 ^ b - 1) := by
    have := Nat.div_add_mod r (2 ^ (b + 1))
    omega
  have hrest : i ≥ b + 1 → (r / 2 ^ (b + 1)).testBit (i - (b + 1)) = r.testBit i := by
    intro hi
    rw [Nat.testBit_div_two_pow, Nat.sub_add_cancel hi]
  rw [hsplit, Nat.testBit_two_pow_mul_add _ hlt, Nat.testBit_two_pow_sub_one]
  rcases Nat.lt_trichotomy i b with hi | rfl | hi
  · rw [if_pos (by omega), decide_eq_true hi, Bool.true_or]
  · rw [if_pos (by omega), decide_eq_false (by omega), decide_eq_false (by omega), Bool.false_or,
      Bool.false_and]
  · rw [if_neg (by omega), hrest hi, decide_eq_false (by omega), decide_eq_true (by omega),
      Bool.false_or, Bool.true_and]

lemma testBit_strike (i : Nat) :
    (r &&& (r - 1)).testBit i = (decide (i ≠ b) && r.testBit i) := by
  rw [Nat.testBit_and, testBit_sub_one hb hlow]
  by_cases hi : i < b
  · rw [hlow i hi, Bool.false_and, Bool.and_false]
  · rw [decide_eq_false hi, Bool.false_or]
    cases r.testBit i <;> simp

/-- A word and its negative share the lowest set bit only. -/
lemma and_negative (hr : r < 2 ^ 64) : r &&& (2 ^ 64 - r) = 2 ^ b := by
  have hpos : 0 < r := Nat.pos_of_ne_zero fun h => by simp [h] at hb
  have hsub : 2 ^ 64 - r = 2 ^ 64 - (r - 1 + 1) := by
    rw [Nat.sub_add_cancel hpos]
  refine Nat.eq_of_testBit_eq fun i => ?_
  rw [hsub, Nat.testBit_and, Nat.testBit_two_pow_sub_succ (by omega), testBit_sub_one hb hlow,
    Nat.testBit_two_pow]
  have hbelow : r.testBit i = true → i < 64 := by
    intro h
    by_contra hi
    rw [Nat.testBit_lt_two_pow (hr.trans_le (Nat.pow_le_pow_right Nat.two_pos (by omega)))] at h
    simp at h
  rcases Nat.lt_trichotomy i b with hi | rfl | hi
  · rw [hlow i hi, Bool.false_and, decide_eq_false (by omega)]
  · simp [hb, hbelow hb]
  · cases hri : r.testBit i with
    | false => simp [hi.ne]
    | true => simp [hi.ne, hi.ne']

/-- The lowest set bit comes first, and the others are those of the word without it. -/
lemma setBits_eq_cons (hr : r < 2 ^ 64) : setBits r = b :: setBits (r &&& (r - 1)) := by
  have hb64 : b < 64 := by
    by_contra hi
    rw [Nat.testBit_lt_two_pow (hr.trans_le (Nat.pow_le_pow_right Nat.two_pos (by omega)))] at hb
    simp at hb
  have hrange : List.range 64 = List.range b ++ b :: List.range' (b + 1) (63 - b) := by
    rw [List.range_eq_range', List.range_eq_range', ← List.range'_succ]
    have happend := @List.range'_append_1 0 b (63 - b + 1)
    rw [Nat.zero_add] at happend
    rw [happend]
    congr 1
    omega
  have hstrike := testBit_strike hb hlow
  unfold setBits
  rw [hrange, List.filter_append, List.filter_append, List.filter_cons_of_pos hb,
    List.filter_cons_of_neg (by simp [hstrike])]
  have hfront : (List.range b).filter r.testBit = [] ∧
      (List.range b).filter (r &&& (r - 1)).testBit = [] := by
    rw [List.filter_eq_nil_iff, List.filter_eq_nil_iff]
    constructor
    · intro i hi
      rw [hlow i (List.mem_range.mp hi)]
      simp
    · intro i hi
      rw [hstrike, hlow i (List.mem_range.mp hi)]
      simp
  rw [hfront.1, hfront.2, List.nil_append, List.nil_append]
  congr 1
  refine List.filter_congr fun i hi => ?_
  obtain ⟨hle, -⟩ := List.mem_range'_1.mp hi
  rw [hstrike, decide_eq_true (by omega), Bool.true_and]

end Lowest

section Words
variable {value remaining bit result : UInt64}

lemma toNat_lowest (h : remaining ≠ 0) :
    (remaining &&& (0 - remaining)).toNat = remaining.toNat &&& (2 ^ 64 - remaining.toNat) := by
  have hpos : remaining.toNat ≠ 0 := fun h0 => h (UInt64.toNat_inj.mp h0)
  have hlt := remaining.toNat_lt
  rw [UInt64.toNat_and, UInt64.toNat_sub]
  congr 1
  rw [UInt64.toNat_zero, Nat.add_zero, Nat.mod_eq_of_lt (by omega)]

lemma toNat_strike (h : remaining ≠ 0) :
    (remaining &&& (remaining - 1)).toNat = remaining.toNat &&& (remaining.toNat - 1) := by
  have hpos : remaining.toNat ≠ 0 := fun h0 => h (UInt64.toNat_inj.mp h0)
  have hle : (1 : UInt64) ≤ remaining := by
    rw [UInt64.le_iff_toNat_le]
    exact Nat.pos_of_ne_zero hpos
  rw [UInt64.toNat_and, UInt64.toNat_sub_of_le _ _ hle]
  rfl

/-- Whether the bit of the current round is set in the value; beyond the word none is. -/
lemma and_bit_ne_zero {k : Nat} (hbit : bit.toNat = 2 ^ k % 2 ^ 64) :
    (value &&& bit != 0) = decide (value.toNat >>> k % 2 = 1) := by
  have hshift : decide (value.toNat >>> k % 2 = 1) = value.toNat.testBit k := by
    rw [← Nat.testBit_zero, Nat.testBit_shiftRight, Nat.add_zero]
  have hzero : (value &&& bit != 0) = decide (value.toNat &&& bit.toNat ≠ 0) := by
    rw [Bool.eq_iff_iff, bne_iff_ne, decide_eq_true_iff, ← UInt64.toNat_and, not_iff_not,
      ← UInt64.toNat_inj]
    rfl
  rw [hshift, hzero, hbit]
  by_cases hk : k < 64
  · rw [Nat.mod_eq_of_lt (Nat.pow_lt_pow_right (by omega) hk), Nat.and_two_pow]
    cases value.toNat.testBit k <;> simp
  · have hdvd : 2 ^ k % 2 ^ 64 = 0 := Nat.mod_eq_zero_of_dvd (Nat.pow_dvd_pow 2 (by omega))
    have hlt : value.toNat < 2 ^ k :=
      value.toNat_lt.trans_le (Nat.pow_le_pow_right Nat.two_pos (by omega))
    rw [hdvd, Nat.testBit_lt_two_pow hlt]
    simp

/-- The rounds from bit `k` on. -/
theorem toNat_depositFrom (k : Nat) (hbit : bit.toNat = 2 ^ k % 2 ^ 64) :
    (depositFrom value remaining bit result).toNat =
      result.toNat ||| scatter (setBits remaining.toNat) (value.toNat >>> k) := by
  induction remaining, bit, result using depositFrom.induct value generalizing k with
  | case1 bit result =>
    rw [depositFrom, dif_pos rfl]
    have hnone : setBits (0 : UInt64).toNat = [] := by decide
    rw [hnone, scatter, Nat.or_zero]
  | case2 remaining bit result h lowest result' ih =>
    obtain ⟨b, hb, hlow⟩ := exists_lowest (fun h0 => h (UInt64.toNat_inj.mp h0))
    have hnext : (bit <<< 1).toNat = 2 ^ (k + 1) % 2 ^ 64 := by
      rw [UInt64.toNat_shiftLeft, hbit]
      have hone : (1 : UInt64).toNat % 64 = 1 := rfl
      rw [hone, Nat.shiftLeft_eq, Nat.pow_one, Nat.mod_mul_mod, ← Nat.pow_succ]
    have hlowest : lowest.toNat = 2 ^ b := by
      rw [toNat_lowest h, and_negative hb hlow remaining.toNat_lt]
    have hresult : result'.toNat =
        result.toNat ||| if value.toNat >>> k % 2 = 1 then 2 ^ b else 0 := by
      have hdef : result' = if value &&& bit != 0 then result ||| lowest else result := rfl
      rw [hdef, and_bit_ne_zero hbit]
      by_cases hodd : value.toNat >>> k % 2 = 1
      · rw [decide_eq_true hodd, if_pos rfl, if_pos hodd, UInt64.toNat_or, hlowest]
      · rw [decide_eq_false hodd, if_neg Bool.false_ne_true, if_neg hodd, Nat.or_zero]
    rw [depositFrom, dif_neg h]
    refine (ih (k + 1) hnext).trans ?_
    rw [hresult, toNat_strike h, setBits_eq_cons hb hlow remaining.toNat_lt, scatter, Nat.or_assoc,
      Nat.shiftRight_succ]
    rfl

/-- Bit `j` of the value goes to the place of the `j`-th set bit of the mask. -/
theorem toNat_deposit (value mask : UInt64) :
    (deposit value mask).toNat = scatter (setBits mask.toNat) value.toNat := by
  refine (toNat_depositFrom 0 rfl).trans ?_
  rw [UInt64.toNat_zero, Nat.zero_or, Nat.shiftRight_zero]

end Words

end GateFusion.Bits
