import GateFusion.Proofs.Conjugate
import GateFusion.Proofs.OrderedMap
import GateFusion.Proofs.Reals
import GateFusion.Proofs.State.Apply
import GateFusion.Simulation.Sampling
import Mathlib.Data.Nat.Digits.Defs
import Mathlib.Order.Bounds.Basic
import Mathlib.Tactic.IntervalCases

/-!
# Sampling

The search for an outcome adds up the probabilities from the first index on and stops as soon as
the sum exceeds its bound. Without rounding the sums end at the norm, which every draw stays below,
so that the search finds an index. Counting loses no outcome, and the bits that outcomes are counted
by tell them apart.
-/

namespace GateFusion

lemma Cartesian.normSq_nonneg (z : Cartesian ℝ) : 0 ≤ z.normSq :=
  add_nonneg (mul_self_nonneg z.re) (mul_self_nonneg z.im)

namespace Statevector

section Search
variable {α : Type} [Scalar α] {r c : α} {zs : List (Cartesian α)} {start i : Nat}

/-- The sum that the search has reached after `k` amplitudes. -/
def runningSum (c : α) (zs : List (Cartesian α)) (k : Nat) : α :=
  (zs.take k).foldl (fun sum z => sum + z.normSq) c

/-- The index found is the first after which the sum exceeds the bound. -/
lemma firstAbove_eq_some (h : firstAbove r zs start c = some i) :
    ∃ k < zs.length, i = start + k ∧ r < runningSum c zs (k + 1) ∧
      ∀ j < k, ¬ r < runningSum c zs (j + 1) := by
  induction zs generalizing start c with
  | nil => simp [firstAbove] at h
  | cons z zs ih =>
    rw [firstAbove] at h
    split at h
    · rename_i hlt
      exact ⟨0, by simp, (Option.some.inj h).symm, hlt, by simp⟩
    · rename_i hnot
      obtain ⟨k, hk, hi, hlt, hbefore⟩ := ih h
      refine ⟨k + 1, by simpa using hk, by omega, hlt, fun j hj => ?_⟩
      cases j with
      | zero => exact hnot
      | succ j => exact hbefore j (by omega)

lemma firstAbove_eq_none (h : firstAbove r zs start c = none) {k : Nat} (hk : k < zs.length) :
    ¬ r < runningSum c zs (k + 1) := by
  induction zs generalizing start c k with
  | nil => simp at hk
  | cons z zs ih =>
    rw [firstAbove] at h
    split at h
    · simp at h
    · rename_i hnot
      cases k with
      | zero => exact hnot
      | succ k => exact ih h (by simpa using hk)

end Search

section Exact
variable {α : Type} [Exact α]

/-- Without rounding the search adds up the squared amplitudes. -/
lemma runningSum_eq_sum (s : Statevector α) (k : Nat) :
    runningSum 0 s.amplitudes.toList k = ∑ i ∈ Finset.range k, (s.amp i).normSq := by
  induction k with
  | zero => rfl
  | succ k ih =>
    rw [Finset.sum_range_succ, ← ih, runningSum, List.take_add_one, List.foldl_append]
    cases h : s.amplitudes.toList[k]? with
    | none =>
      have hamp : s.amp k = 0 := by
        rw [amp, Array.getD_eq_getD_getElem?, ← Array.getElem?_toList, h, Option.getD_none]
      rw [hamp, Cartesian.normSq_zero, add_zero]
      rfl
    | some z =>
      have hamp : s.amp k = z := by
        rw [amp, Array.getD_eq_getD_getElem?, ← Array.getElem?_toList, h, Option.getD_some]
      rw [hamp]
      rfl

lemma normSq_eq_runningSum (s : Statevector α) :
    s.normSq = runningSum 0 s.amplitudes.toList s.amplitudes.size := by
  have hall : s.amplitudes.toList.take s.amplitudes.size = s.amplitudes.toList :=
    List.take_of_length_le (by simp)
  rw [normSq, Scalar.sum, runningSum, hall, List.foldl_map, neg_zero]

end Exact

section Real
variable {s : Statevector ℝ} {u : ℝ}

/-- What a draw selects: the first index at which the squared amplitudes add up to more than its
share of the norm. It is found by the search, and its amplitude is not zero. -/
structure Selects (s : Statevector ℝ) (u : ℝ) (i : Nat) : Prop where
  found : firstAbove (u * s.normSq) s.amplitudes.toList 0 0 = some i
  sampled : s.sample u = i
  lt_size : i < s.amplitudes.size
  least : IsLeast {j | u * s.normSq < ∑ k ∈ Finset.range (j + 1), (s.amp k).normSq} i
  nonzero : s.amp i ≠ 0

lemma normSq_eq_sum (s : Statevector ℝ) :
    s.normSq = ∑ k ∈ Finset.range s.amplitudes.size, (s.amp k).normSq :=
  (normSq_eq_runningSum s).trans (runningSum_eq_sum s _)

lemma normSq_pos (hs : s.normSq ≠ 0) : 0 < s.normSq := by
  refine lt_of_le_of_ne ?_ hs.symm
  rw [normSq_eq_sum]
  exact Finset.sum_nonneg fun k _ => Cartesian.normSq_nonneg _

/-- A draw below one stays below the last sum. -/
lemma exists_firstAbove (hs : s.normSq ≠ 0) (hu : u < 1) :
    ∃ i, firstAbove (u * s.normSq) s.amplitudes.toList 0 0 = some i := by
  have hbelow : u * s.normSq < s.normSq := mul_lt_of_lt_one_left (normSq_pos hs) hu
  cases h : firstAbove (u * s.normSq) s.amplitudes.toList 0 0 with
  | some i => exact ⟨i, rfl⟩
  | none =>
    exfalso
    cases hsize : s.amplitudes.size with
    | zero =>
      -- without amplitudes the norm would be zero
      rw [normSq_eq_sum, hsize] at hs
      exact hs rfl
    | succ k =>
      refine firstAbove_eq_none h (k := k) (by simp [hsize]) ?_
      rw [← hsize, ← normSq_eq_runningSum]
      exact hbelow

lemma selects_of_firstAbove {i : Nat} (hs : s.normSq ≠ 0) (hu : 0 ≤ u)
    (h : firstAbove (u * s.normSq) s.amplitudes.toList 0 0 = some i) : s.Selects u i := by
  obtain ⟨k, hk, hi, habove, hbefore⟩ := firstAbove_eq_some h
  rw [Nat.zero_add] at hi
  subst hi
  simp only [runningSum_eq_sum] at habove hbefore
  constructor
  case found => exact h
  case sampled => rw [sample, h, Option.getD_some]
  case lt_size => simpa using hk
  case least =>
    refine ⟨habove, fun j hj => ?_⟩
    by_contra hlt
    exact hbefore j (by omega) hj
  case nonzero =>
    -- an amplitude of zero leaves the sum where it was
    intro hzero
    rw [Finset.sum_range_succ, hzero, Cartesian.normSq_zero, add_zero] at habove
    cases i with
    | zero => exact absurd habove (not_lt.mpr (mul_nonneg hu (normSq_pos hs).le))
    | succ j => exact hbefore j (by omega) habove

end Real

section Counts
variable {κ : Type} {cmp : κ → κ → Ordering}

/-- Counting an outcome adds one to the sum of the counts. -/
lemma sum_upsert_count (key : κ) (counts : OrderedMap κ Nat) :
    ((OrderedMap.upsert cmp key (fun c => c.getD 0 + 1) counts).map (·.2)).sum =
      (counts.map (·.2)).sum + 1 := by
  rcases OrderedMap.upsert_perm_cases cmp key (fun c => c.getD 0 + 1) counts with
    hu | ⟨k, v, rest, -, hm, hu⟩
  · rw [(hu.map (·.2)).sum_eq]
    simp [Nat.add_comm]
  · rw [(hu.map (·.2)).sum_eq, (hm.map (·.2)).sum_eq]
    simp [Nat.add_right_comm]

variable {α : Type} [Scalar α]

lemma sum_sampleCounts (s : Statevector α) (shots : Nat) (draws : Nat → α) :
    ((s.sampleCounts shots draws).map (·.2)).sum = shots := by
  induction shots with
  | zero => rfl
  | succ shots ih =>
    rw [sampleCounts, List.range_succ, List.foldl_append]
    exact (sum_upsert_count _ _).trans (congrArg (· + 1) ih)

end Counts

section Bits

/-- The binary digits of a number, the last one first, are its bits. -/
lemma getD_reverse_toDigits (m q : Nat) :
    (Nat.toDigits 2 m).reverse.getD q '0' = if m.testBit q then '1' else '0' := by
  induction m using Nat.strongRecOn generalizing q with
  | ind m ih =>
    by_cases hm : m < 2
    · rw [Nat.toDigits_of_lt_base hm]
      have hcases : m = 0 ∨ m = 1 := by omega
      rcases hcases with rfl | rfl
      · cases q <;> simp
      · cases q <;> simp [Nat.testBit_succ]
    · -- the last digit is the lowest bit, and the others are those of half the number
      rw [Nat.toDigits_of_base_le (by omega) (by omega), List.reverse_append]
      cases q with
      | zero =>
        have hlast : (m % 2).digitChar = if m.testBit 0 then '1' else '0' := by
          rw [Nat.testBit_zero]
          rcases Nat.mod_two_eq_zero_or_one m with hmod | hmod
          · rw [hmod]
            rfl
          · rw [hmod]
            rfl
        exact hlast
      | succ q =>
        rw [Nat.testBit_succ, ← ih (m / 2) (by omega)]
        rfl

variable {α : Type} {s : Statevector α}

lemma toList_bitstring (hn : 1 ≤ s.numQubits) {i : Nat} (hi : i < 2 ^ s.numQubits) :
    (s.bitstring i).toList =
      (List.range s.numQubits).map fun q => if i.testBit q then '1' else '0' := by
  have hlen : (Nat.toDigits 2 i).length ≤ s.numQubits := Nat.toDigits_length 2 i _ hn hi
  rw [bitstring, String.toList_ofList, List.reverse_append, List.reverse_replicate]
  refine List.ext_getElem (by simp; omega) fun q hq _ => ?_
  rw [List.getElem_map, List.getElem_range, ← getD_reverse_toDigits, List.getElem_append]
  split
  · rename_i hdigit
    exact (List.getD_eq_getElem _ _ hdigit).symm
  · rename_i hpad
    rw [List.getElem_replicate, List.getD_eq_default _ _ (Nat.le_of_not_lt hpad)]

/-- Outcomes of a register have different bits. -/
lemma bitstring_injOn (hn : 1 ≤ s.numQubits) {i j : Nat} (hi : i < 2 ^ s.numQubits)
    (hj : j < 2 ^ s.numQubits) (h : s.bitstring i = s.bitstring j) : i = j := by
  have hlist := congrArg String.toList h
  rw [toList_bitstring hn hi, toList_bitstring hn hj] at hlist
  refine Nat.eq_of_testBit_eq fun q => ?_
  by_cases hq : q < s.numQubits
  · have hbit := List.map_inj_left.mp hlist q (List.mem_range.mpr hq)
    revert hbit
    cases i.testBit q <;> cases j.testBit q <;> simp
  · have hle : 2 ^ s.numQubits ≤ 2 ^ q := Nat.pow_le_pow_right (by decide) (Nat.le_of_not_lt hq)
    rw [Nat.testBit_eq_false_of_lt (hi.trans_le hle), Nat.testBit_eq_false_of_lt (hj.trans_le hle)]

end Bits

/-- Every draw selects the first index at which the squared amplitudes add up to more than its share
of the norm. Counting keeps the number of shots, and outcomes are counted by their bits, which no
two outcomes share. -/
theorem sample_inverts_sums :
    (∀ (s : Statevector ℝ) (u : ℝ), s.normSq ≠ 0 → 0 ≤ u → u < 1 → s.Selects u (s.sample u)) ∧
    (∀ (α : Type) [Scalar α] (s : Statevector α) (shots : Nat) (draws : Nat → α),
      ((s.sampleCounts shots draws).map (·.2)).sum = shots) ∧
    ∀ (α : Type) (s : Statevector α), 1 ≤ s.numQubits →
      (∀ i < 2 ^ s.numQubits, (s.bitstring i).length = s.numQubits ∧
        ∀ q < s.numQubits, (s.bitstring i).toList[q]? = some (if i.testBit q then '1' else '0')) ∧
      ∀ i < 2 ^ s.numQubits, ∀ j < 2 ^ s.numQubits, i ≠ j → s.bitstring i ≠ s.bitstring j := by
  refine ⟨fun s u hs hu hlt => ?_, fun α _ s shots draws => sum_sampleCounts s shots draws,
    fun α s hn => ⟨fun i hi => ⟨?_, fun q hq => ?_⟩, fun i hi j hj hne heq => ?_⟩⟩
  · obtain ⟨i, hi⟩ := exists_firstAbove hs hlt
    have hselects := selects_of_firstAbove hs hu hi
    rwa [hselects.sampled]
  · rw [← String.length_toList, toList_bitstring hn hi, List.length_map, List.length_range]
  · rw [toList_bitstring hn hi, List.getElem?_map, List.getElem?_range hq, Option.map_some]
  · exact hne (bitstring_injOn hn hi hj heq)

section Sample

/-- Two qubits of which the first is one, not normalized. -/
noncomputable def firstSet : Statevector ℝ :=
  ⟨#[⟨0, 0⟩, ⟨1, 0⟩, ⟨0, 0⟩, ⟨0, 1⟩], 2⟩

/-- The squared amplitudes add up to `0`, `1`, `1` and `2`. -/
lemma sums_firstSet : ∀ j < 4, ∑ k ∈ Finset.range (j + 1), (firstSet.amp k).normSq =
    if j = 0 then 0 else if j < 3 then 1 else 2 := by
  intro j hj
  interval_cases j
  all_goals norm_num [firstSet, amp, Finset.sum_range_succ, Cartesian.normSq]

lemma normSq_firstSet : firstSet.normSq = 2 :=
  (normSq_eq_sum firstSet).trans (sums_firstSet 3 (by decide))

/-- A draw of zero passes over the amplitude that is zero, and one at the border of two outcomes
selects the second of them. -/
theorem sample_inverts_sums_firstSet : firstSet.normSq ≠ 0 ∧ firstSet.Selects 0 1 ∧
    firstSet.Selects (1 / 2) 3 ∧
    ((firstSet.sampleCounts 5 fun k => k / 5).map (·.2)).sum = 5 ∧
    firstSet.bitstring 1 = "10" ∧ firstSet.bitstring 1 ≠ firstSet.bitstring 2 := by
  obtain ⟨hselects, hcounts, hbits⟩ := sample_inverts_sums
  have hnorm : firstSet.normSq ≠ 0 := by
    rw [normSq_firstSet]
    exact two_ne_zero
  have hfirst := hselects firstSet 0 hnorm le_rfl one_pos
  have hborder := hselects firstSet (1 / 2) hnorm (by norm_num) (by norm_num)
  have hone : firstSet.sample 0 = 1 := by
    refine hfirst.least.unique ⟨?_, fun j hj => ?_⟩
    · rw [Set.mem_ofPred_eq, sums_firstSet 1 (by decide), normSq_firstSet]
      norm_num
    · by_contra hlt
      rw [Set.mem_ofPred_eq, sums_firstSet j (by omega), normSq_firstSet, if_pos (by omega)] at hj
      norm_num at hj
  have hthree : firstSet.sample (1 / 2) = 3 := by
    refine hborder.least.unique ⟨?_, fun j hj => ?_⟩
    · rw [Set.mem_ofPred_eq, sums_firstSet 3 (by decide), normSq_firstSet]
      norm_num
    · by_contra hlt
      rw [Set.mem_ofPred_eq, sums_firstSet j (by omega), normSq_firstSet] at hj
      split_ifs at hj
      · norm_num at hj
      · norm_num at hj
      · omega
  rw [hone] at hfirst
  rw [hthree] at hborder
  have hregister : 1 ≤ firstSet.numQubits := by decide
  exact ⟨hnorm, hfirst, hborder, hcounts ℝ firstSet 5 _, rfl,
    (hbits ℝ firstSet hregister).2 1 (by decide) 2 (by decide) (by decide)⟩

end Sample

end Statevector
end GateFusion
