import Mathlib.Data.Nat.Nth
import GateFusion.Proofs.Kernel.Partition

/-!
# Rounds of a bit deposit

Each round of a deposit fills one place of the mask, so there are as many rounds as the mask has set
bits. A place receives the bit of the value whose number is the rank of the place, that is, the
number of set bits below it. Values that fit the mask therefore keep their order, and bits beyond
the last place do not count.
-/

namespace GateFusion.Bits
open Statevector

/-- The number of set bits of a mask below a place. -/
def rank (mask : UInt64) (place : Nat) : Nat := Nat.count (mask.toNat.testBit ·) place

/-- The number of set bits of a mask. -/
def popCount (mask : UInt64) : Nat := rank mask 64

/-- What a deposit carries from round to round: the places left to fill, the bit of the value that
comes next, and what has been deposited. -/
structure Round where
  remaining : UInt64
  bit : UInt64
  result : UInt64

namespace Round

/-- Before the first round. -/
def start (mask : UInt64) : Round := ⟨mask, 1, 0⟩

/-- One round fills the lowest place left. -/
def next (value : UInt64) (s : Round) : Round where
  remaining := s.remaining &&& (s.remaining - 1)
  bit := s.bit <<< 1
  result := if value &&& s.bit != 0 then s.result ||| (s.remaining &&& (0 - s.remaining))
    else s.result

/-- The rounds from here to the last. -/
def finish (value : UInt64) (s : Round) : UInt64 :=
  depositFrom value s.remaining s.bit s.result

lemma finish_eq (value : UInt64) (s : Round) :
    s.finish value = if s.remaining = 0 then s.result else (s.next value).finish value := by
  rw [finish, depositFrom]
  split <;> rfl

/-- The state after `k` rounds: `k` places are filled, and the next bit is bit `k` of the value,
which is none past the end of a word. -/
structure Filled (value mask : UInt64) (k : Nat) (s : Round) : Prop where
  remaining : setBits s.remaining.toNat = (setBits mask.toNat).drop k
  bit : s.bit.toNat = 2 ^ k % 2 ^ 64
  result : s.result.toNat = scatter ((setBits mask.toNat).take k) value.toNat

lemma filled_start (value mask : UInt64) : Filled value mask 0 (start mask) :=
  ⟨rfl, rfl, rfl⟩

lemma setBits_eq_nil {m : UInt64} : setBits m.toNat = [] ↔ m = 0 := by
  constructor
  · intro h
    by_contra hm
    obtain ⟨b, hb, hlow⟩ := exists_lowest fun h0 => hm (UInt64.toNat_inj.mp h0)
    rw [setBits_eq_cons hb hlow m.toNat_lt] at h
    simp at h
  · rintro rfl
    decide

/-- A round fills one more place. Where none is left it changes nothing but the next bit. -/
lemma Filled.next {value mask : UInt64} {k : Nat} {s : Round} (h : Filled value mask k s) :
    Filled value mask (k + 1) (s.next value) := by
  have hbit : (s.next value).bit.toNat = 2 ^ (k + 1) % 2 ^ 64 := by
    have hone : (1 : UInt64).toNat % 64 = 1 := rfl
    rw [Round.next, UInt64.toNat_shiftLeft, h.bit, hone, Nat.shiftLeft_eq, Nat.pow_one,
      Nat.mod_mul_mod, ← Nat.pow_succ]
  by_cases hzero : s.remaining = 0
  -- the mask is used up, so taking or dropping one place more changes nothing
  · have hdrop : (setBits mask.toNat).drop k = [] := by
      rw [← h.remaining, setBits_eq_nil.mpr hzero]
    have hlen := List.drop_eq_nil_iff.mp hdrop
    refine ⟨?_, hbit, ?_⟩
    · have hnext : (s.next value).remaining = 0 := by
        rw [Round.next, hzero, UInt64.zero_and]
      rw [setBits_eq_nil.mpr hnext, List.drop_of_length_le (by omega)]
    · have hresult : (s.next value).result = s.result := by
        rw [Round.next, hzero]
        simp
      rw [hresult, h.result, List.take_of_length_le hlen, List.take_of_length_le (by omega)]
  -- the lowest place left is place number `k` of the mask
  · obtain ⟨b, hb, hlow⟩ := exists_lowest fun h0 => hzero (UInt64.toNat_inj.mp h0)
    have hcons := setBits_eq_cons hb hlow s.remaining.toNat_lt
    rw [h.remaining, ← toNat_strike hzero] at hcons
    have hget : (setBits mask.toNat)[k]? = some b := by
      rw [← List.head?_drop, hcons, List.head?_cons]
    have hlen := (List.getElem?_eq_some_iff.mp hget).1
    refine ⟨?_, hbit, ?_⟩
    · rw [← List.tail_drop, hcons]
      rfl
    · have hlowest : (s.remaining &&& (0 - s.remaining)).toNat = 2 ^ b := by
        rw [toNat_lowest hzero, and_negative hb hlow s.remaining.toNat_lt]
      have htake : (setBits mask.toNat).take (k + 1) = (setBits mask.toNat).take k ++ [b] := by
        rw [List.take_add_one, hget, Option.toList_some]
      have htest : (value &&& s.bit != 0) = value.toNat.testBit k := by
        rw [and_bit_ne_zero h.bit, ← Nat.testBit_zero, Nat.testBit_shiftRight, Nat.add_zero]
      rw [htake, scatter_concat, List.length_take_of_le hlen.le, ← h.result, Round.next, htest]
      cases value.toNat.testBit k with
      | false => rw [if_neg Bool.false_ne_true, if_neg Bool.false_ne_true, Nat.or_zero]
      | true => rw [if_pos rfl, if_pos rfl, UInt64.toNat_or, hlowest]

lemma filled_iterate (value mask : UInt64) (k : Nat) :
    Filled value mask k ((Round.next value)^[k] (start mask)) := by
  induction k with
  | zero => exact filled_start value mask
  | succ k ih =>
    rw [Function.iterate_succ_apply']
    exact ih.next

lemma length_setBits (mask : UInt64) : (setBits mask.toNat).length = popCount mask :=
  length_filter_range _ _

lemma remaining_iterate (value mask : UInt64) (k : Nat) :
    ((Round.next value)^[k] (start mask)).remaining = 0 ↔ popCount mask ≤ k := by
  rw [← setBits_eq_nil, (filled_iterate value mask k).remaining, List.drop_eq_nil_iff,
    length_setBits]

lemma result_iterate (value mask : UInt64) :
    ((Round.next value)^[popCount mask] (start mask)).result = deposit value mask := by
  apply UInt64.toNat_inj.mp
  rw [(filled_iterate value mask _).result, List.take_of_length_le (length_setBits mask).le,
    toNat_deposit]

end Round

section Rank
variable {mask v w : UInt64}

/-- A place of the mask receives the bit whose number is its rank. -/
lemma testBit_deposit (value mask : UInt64) (j : Nat) : (deposit value mask).toNat.testBit j =
    (mask.toNat.testBit j && value.toNat.testBit (rank mask j)) := by
  rw [toNat_deposit, setBits, testBit_scatter_filter, rank]
  by_cases hj : j < 64
  · rw [decide_eq_true hj, Bool.true_and]
  · have hpow : 2 ^ 64 ≤ 2 ^ j := Nat.pow_le_pow_right Nat.two_pos (by omega)
    rw [Nat.testBit_lt_two_pow (mask.toNat_lt.trans_le hpow), Bool.false_and, Bool.and_false]

lemma rank_lt_popCount {j : Nat} (hj : mask.toNat.testBit j = true) :
    rank mask j < popCount mask := by
  refine Nat.count_strict_mono hj ?_
  by_contra hle
  have hpow : 2 ^ 64 ≤ 2 ^ j := Nat.pow_le_pow_right Nat.two_pos (by omega)
  rw [Nat.testBit_lt_two_pow (mask.toNat_lt.trans_le hpow)] at hj
  simp at hj

/-- Every number below the number of set bits is the rank of a place. -/
lemma exists_rank_eq {i : Nat} (hi : i < popCount mask) :
    ∃ j, mask.toNat.testBit j = true ∧ rank mask j = i := by
  have hcard : ∀ hf : (Set.ofPred fun j => mask.toNat.testBit j = true).Finite,
      i < hf.toFinset.card := fun hf => hi.trans_le (Nat.count_le_card hf 64)
  exact ⟨_, Nat.nth_mem (p := (mask.toNat.testBit ·)) i hcard, Nat.count_nth hcard⟩

/-- The greater of two numbers has the highest bit in which they differ. -/
lemma exists_highest_of_lt {x y : Nat} (h : x < y) :
    ∃ i, x.testBit i = false ∧ y.testBit i = true ∧
      ∀ j, i < j → x.testBit j = y.testBit j := by
  have hne : x ^^^ y ≠ 0 := fun h0 => h.ne (Nat.xor_eq_zero_iff.mp h0)
  obtain ⟨i, hi, habove⟩ := Nat.exists_most_significant_bit hne
  have hsame : ∀ j, i < j → x.testBit j = y.testBit j := by
    intro j hj
    have hxor := habove j hj
    rw [Nat.testBit_xor] at hxor
    simpa using hxor
  rw [Nat.testBit_xor] at hi
  cases hx : x.testBit i with
  | false => exact ⟨i, hx, by simpa [hx] using hi, hsame⟩
  | true =>
    have hy : y.testBit i = false := by simpa [hx] using hi
    exact absurd (Nat.lt_of_testBit i hy hx fun j hj => (hsame j hj).symm) h.not_gt

/-- Among values that fit the mask the greater has the greater deposit. -/
lemma deposit_lt_deposit (h : v < w) (hw : w.toNat < 2 ^ popCount mask) :
    deposit v mask < deposit w mask := by
  rw [UInt64.lt_iff_toNat_lt] at h ⊢
  obtain ⟨i, hv, hwi, habove⟩ := exists_highest_of_lt h
  have hi : i < popCount mask := by
    by_contra hge
    have hpow : 2 ^ popCount mask ≤ 2 ^ i := Nat.pow_le_pow_right Nat.two_pos (by omega)
    rw [Nat.testBit_lt_two_pow (hw.trans_le hpow)] at hwi
    simp at hwi
  -- the highest bit in which the values differ goes to `j`, and above `j` the deposits agree
  obtain ⟨j, hj, rfl⟩ := exists_rank_eq hi
  refine Nat.lt_of_testBit j ?_ ?_ fun j' hj' => ?_
  · rw [testBit_deposit, hv, Bool.and_false]
  · rw [testBit_deposit, hj, hwi, Bool.true_and]
  · have hrank : rank mask j < rank mask j' := Nat.count_strict_mono hj hj'
    rw [testBit_deposit, testBit_deposit, habove _ hrank]

/-- Only as many bits of a value count as the mask has places. -/
lemma deposit_congr (h : v.toNat % 2 ^ popCount mask = w.toNat % 2 ^ popCount mask) :
    deposit v mask = deposit w mask := by
  apply UInt64.toNat_inj.mp
  refine Nat.eq_of_testBit_eq fun j => ?_
  rw [testBit_deposit, testBit_deposit]
  cases hj : mask.toNat.testBit j with
  | false => rw [Bool.false_and, Bool.false_and]
  | true =>
    have hbit := congrArg (·.testBit (rank mask j)) h
    simp only [Nat.testBit_mod_two_pow, rank_lt_popCount hj, decide_true, Bool.true_and] at hbit
    rw [hbit]

end Rank

/-- A deposit fills the places of a mask one a round, each by the bit of its rank. -/
structure FillsByRank (mask : UInt64) : Prop where
  start : ∀ value, deposit value mask = (Round.start mask).finish value
  loop : ∀ value (s : Round), s.finish value =
    if s.remaining = 0 then s.result else (s.next value).finish value
  rounds : ∀ value k, ((Round.next value)^[k] (.start mask)).remaining = 0 ↔ popCount mask ≤ k
  result : ∀ value, ((Round.next value)^[popCount mask] (.start mask)).result = deposit value mask
  bits : ∀ (value : UInt64) j, (deposit value mask).toNat.testBit j = true ↔
    mask.toNat.testBit j = true ∧ value.toNat.testBit (rank mask j) = true
  increasing : ∀ v w : UInt64, v < w → w.toNat < 2 ^ popCount mask → deposit v mask < deposit w mask
  injective : Set.InjOn (deposit · mask) {v | v.toNat < 2 ^ popCount mask}
  low : ∀ v w : UInt64, v.toNat % 2 ^ popCount mask = w.toNat % 2 ^ popCount mask →
    deposit v mask = deposit w mask

/-- Bit deposit, for every mask up to the full one. -/
theorem deposit_fillsByRank (mask : UInt64) : FillsByRank mask where
  start _ := rfl
  loop value s := s.finish_eq value
  rounds value k := Round.remaining_iterate value mask k
  result value := Round.result_iterate value mask
  bits value j := by rw [testBit_deposit, Bool.and_eq_true]
  increasing v w h hw := deposit_lt_deposit h hw
  injective v hv w hw heq := by
    rcases Nat.lt_trichotomy v.toNat w.toNat with h | h | h
    · exact absurd heq (UInt64.ne_of_lt (deposit_lt_deposit (UInt64.lt_iff_toNat_lt.mpr h) hw))
    · exact UInt64.toNat_inj.mp h
    · exact absurd heq.symm
        (UInt64.ne_of_lt (deposit_lt_deposit (UInt64.lt_iff_toNat_lt.mpr h) hv))
  low v w h := deposit_congr h

/-- Bits 0 and 2 of the value go to the first and the third of the places 5, 6 and 7. -/
example : deposit 0b101 0b11100000 = 0b10100000 := by cbv

end GateFusion.Bits
