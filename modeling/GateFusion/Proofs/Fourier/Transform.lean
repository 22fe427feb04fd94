import GateFusion.Proofs.Fourier.Stages
import Mathlib.Analysis.SpecialFunctions.Complex.Circle
import Mathlib.Analysis.SpecialFunctions.Pow.Real

/-!
# The Fourier transform

The swaps at the end of the circuit reverse the bits, so the factors of the stages multiply to the
amplitude of the Fourier transform. Turns are halved with the distance of the two qubits up to
distance 31 and no further; with more than 32 qubits the phases of the farther pairs are too large.
-/

namespace GateFusion.Fourier
open Cartesian
variable {n x y : Nat} {v : String → ℝ}

section Swaps

/-- The index from which `k` swaps lead to an index. -/
def beforeSwaps (n : Nat) : Nat → Nat → Nat
  | 0, y => y
  | k + 1, y => beforeSwaps n k (exchange k (n - 1 - k) y)

/-- Where the bit of a qubit was before `k` swaps. -/
def mirror (n k b : Nat) : Nat := if b < n ∧ (b < k ∨ n - 1 - b < k) then n - 1 - b else b

lemma testBit_beforeSwaps {k : Nat} (hk : k ≤ n / 2) (y b : Nat) :
    (beforeSwaps n k y).testBit b = y.testBit (mirror n k b) := by
  induction k generalizing y with
  | zero => simp [beforeSwaps, mirror]
  | succ k ih =>
    have hne : k ≠ n - 1 - k := by omega
    rw [beforeSwaps, ih (by omega), testBit_exchange hne]
    congr 1
    unfold mirror
    split_ifs <;> omega

/-- The swaps of the first `k` pairs. -/
noncomputable def swapPlacements (n k : Nat) : List (Circuit.Placement ℝ) :=
  (List.range k).map fun i => (.swap, [i, n - 1 - i])

lemma foldl_swaps (n k : Nat) (amp : Nat → Cartesian ℝ) (y : Nat) :
    (swapPlacements n k).foldl (placedAct v) amp y = amp (beforeSwaps n k y) := by
  induction k generalizing y with
  | zero => rfl
  | succ k ih =>
    rw [swapPlacements, List.range_succ, List.map_append, List.foldl_append]
    change act [k, n - 1 - k] _ ((swapPlacements n k).foldl (placedAct v) amp) y = _
    rw [act_swap, ih, beforeSwaps]

/-- All swaps together reverse the bits. -/
lemma testBit_reversed {b : Nat} (hb : b < n) (y : Nat) :
    (beforeSwaps n (n / 2) y).testBit b = y.testBit (n - 1 - b) := by
  rw [testBit_beforeSwaps le_rfl, mirror]
  split_ifs with h
  · rfl
  · congr 1
    omega

lemma reversed_lt (hy : y < 2 ^ n) : beforeSwaps n (n / 2) y < 2 ^ n := by
  refine Nat.lt_pow_two_of_testBit _ fun b hb => ?_
  rw [testBit_beforeSwaps le_rfl, mirror, if_neg (by omega)]
  exact Nat.testBit_lt_two_pow (hy.trans_le (Nat.pow_le_pow_right Nat.two_pos hb))

end Swaps

section Angles

/-- The turn that the transform asks for at a distance. -/
noncomputable def halving (distance : Nat) : ℝ := Real.pi / ((2 ^ distance : Nat) : ℝ)

/-- The number whose most significant of `n` bits is the bit of qubit zero. -/
def bigEndian (n x : Nat) : Nat :=
  ∑ q ∈ Finset.range n, if x.testBit q then 2 ^ (n - 1 - q) else 0

/-- The sum of the turns `t` of all pairs of a set bit of the input and a set bit of the output, by
the distance of their qubits before the swaps. -/
noncomputable def angle (t : Nat → ℝ) (n x y : Nat) : ℝ :=
  ∑ i ∈ Finset.range n, ∑ j ∈ Finset.Ico i n,
    if y.testBit (n - 1 - i) && x.testBit j then t (j - i) else 0

/-- Pairs whose order is the other one turn by full circles. -/
def circles (n x y : Nat) : Nat :=
  ∑ i ∈ Finset.range n, ∑ j ∈ Finset.range i,
    if y.testBit (n - 1 - i) && x.testBit j then 2 ^ (i - j - 1) else 0

lemma halving_eq (d : Nat) : halving d = Real.pi / 2 ^ d := by
  rw [halving, Nat.cast_pow, Nat.cast_ofNat]

lemma bigEndian_reflect (n y : Nat) :
    bigEndian n y = ∑ i ∈ Finset.range n, if y.testBit (n - 1 - i) then 2 ^ i else 0 := by
  rw [bigEndian, ← Finset.sum_range_reflect]
  refine Finset.sum_congr rfl fun i hi => ?_
  have hlt := Finset.mem_range.mp hi
  have hback : n - 1 - (n - 1 - i) = i := by omega
  rw [hback]

/-- What one pair of bits contributes to the product of the two numbers, as an angle. -/
lemma pair_angle {i j : Nat} (hj : j < n) :
    (2 * Real.pi / 2 ^ n) * (2 ^ i * 2 ^ (n - 1 - j)) = Real.pi * 2 ^ i / 2 ^ j := by
  have hn : (2 : ℝ) ^ n = 2 ^ (n - 1 - j) * 2 ^ j * 2 := by
    rw [← pow_add, ← pow_succ]
    congr 1
    omega
  rw [hn]
  field_simp

lemma pair_angle_before {i j : Nat} (hj : j < i) :
    Real.pi * 2 ^ i / 2 ^ j = 2 ^ (i - j - 1) * (2 * Real.pi) := by
  have hi : (2 : ℝ) ^ i = 2 ^ (i - j - 1) * 2 ^ j * 2 := by
    rw [← pow_add, ← pow_succ]
    congr 1
    omega
  rw [hi]
  field_simp

lemma pair_angle_after {i j : Nat} (hj : i ≤ j) :
    Real.pi * 2 ^ i / 2 ^ j = halving (j - i) := by
  have hi : (2 : ℝ) ^ j = 2 ^ (j - i) * 2 ^ i := by
    rw [← pow_add]
    congr 1
    omega
  rw [halving_eq, hi]
  field_simp

/-- The product of the two numbers, as an angle, is the sum of the turns of all pairs. -/
lemma product_angle (n x y : Nat) :
    2 * Real.pi / 2 ^ n * (bigEndian n x * bigEndian n y) =
      angle halving n x y + circles n x y * (2 * Real.pi) := by
  have hproduct : 2 * Real.pi / 2 ^ n * ((bigEndian n x : ℝ) * bigEndian n y) =
      ∑ i ∈ Finset.range n, ∑ j ∈ Finset.range n,
        if y.testBit (n - 1 - i) && x.testBit j then Real.pi * 2 ^ i / 2 ^ j else 0 := by
    rw [mul_comm (bigEndian n x : ℝ), bigEndian_reflect n y, bigEndian]
    push_cast
    rw [Finset.sum_mul_sum, Finset.mul_sum]
    refine Finset.sum_congr rfl fun i _ => ?_
    rw [Finset.mul_sum]
    refine Finset.sum_congr rfl fun j hj => ?_
    rw [← pair_angle (Finset.mem_range.mp hj)]
    cases y.testBit (n - 1 - i) <;> cases x.testBit j <;> simp
  rw [hproduct, angle, circles]
  push_cast
  rw [Finset.sum_mul, ← Finset.sum_add_distrib]
  refine Finset.sum_congr rfl fun i hi => ?_
  -- the qubits before the one of the output bit turn by full circles, the others as the gates do
  rw [← Finset.sum_range_add_sum_Ico _ (Finset.mem_range.mp hi).le, add_comm, Finset.sum_mul]
  congr 1
  · refine Finset.sum_congr rfl fun j hj => ?_
    rw [pair_angle_after (Finset.mem_Ico.mp hj).1]
  · refine Finset.sum_congr rfl fun j hj => ?_
    rw [pair_angle_before (Finset.mem_range.mp hj), ite_mul, zero_mul]

/-- What the bound on the halving adds to the angle. -/
noncomputable def excess (n x y : Nat) : ℝ := angle (fun d => turn d - halving d) n x y

lemma angle_turn (n x y : Nat) :
    angle turn n x y = angle halving n x y + excess n x y := by
  rw [excess, angle, angle, angle, ← Finset.sum_add_distrib]
  refine Finset.sum_congr rfl fun i _ => ?_
  rw [← Finset.sum_add_distrib]
  refine Finset.sum_congr rfl fun j _ => ?_
  split
  · ring
  · rw [add_zero]

lemma turn_of_le {d : Nat} (hd : d ≤ 31) : turn d = halving d := by
  rw [turn, min_eq_left hd]
  rfl

/-- With up to 32 qubits no two are farther apart than the bound. -/
lemma excess_eq_zero (hn : n ≤ 32) (x y : Nat) : excess n x y = 0 := by
  rw [excess, angle]
  refine Finset.sum_eq_zero fun i _ => Finset.sum_eq_zero fun j hj => ?_
  have hdistance : j - i ≤ 31 := by
    have hlt := (Finset.mem_Ico.mp hj).2
    omega
  rw [turn_of_le hdistance, sub_self, ite_self]

end Angles

section Amplitudes

/-- The complex number with the same parts. -/
noncomputable def toComplex : Cartesian ℝ →+* ℂ where
  toFun z := ⟨z.re, z.im⟩
  map_zero' := rfl
  map_one' := rfl
  map_add' _ _ := rfl
  map_mul' _ _ := rfl

lemma toComplex_real (r : ℝ) : toComplex (real r) = r := rfl

lemma toComplex_polar (t : ℝ) : toComplex (polar 1 t) = Complex.exp (t * Complex.I) := by
  apply Complex.ext
  · rw [Complex.exp_ofReal_mul_I_re]
    exact one_mul (Real.cos t)
  · rw [Complex.exp_ofReal_mul_I_im]
    exact one_mul (Real.sin t)

/-- The amplitude of the Fourier transform. -/
noncomputable def amplitude (n x y : Nat) : ℂ :=
  ((Real.sqrt ((2 ^ n : Nat) : ℝ))⁻¹ : ℝ) *
    Complex.exp (Real.pi * Complex.I * ((2 * bigEndian n x * bigEndian n y : Nat) : ℂ) /
      ((2 ^ n : Nat) : ℂ))

/-- The amplitude in its usual form. -/
lemma amplitude_eq (n x y : Nat) : amplitude n x y = ((2 : ℝ) ^ (-(n : ℝ) / 2) : ℝ) *
    Complex.exp (2 * Real.pi * Complex.I * (bigEndian n x * bigEndian n y) / 2 ^ n) := by
  have hroot : (Real.sqrt ((2 ^ n : Nat) : ℝ))⁻¹ = (2 : ℝ) ^ (-(n : ℝ) / 2) := by
    rw [Nat.cast_pow, Nat.cast_ofNat, Real.sqrt_eq_rpow, ← Real.rpow_natCast,
      ← Real.rpow_mul zero_le_two, ← Real.rpow_neg zero_le_two]
    congr 1
    ring
  rw [amplitude, hroot]
  congr 2
  push_cast
  ring

lemma invSqrtTwo_pow (n : Nat) : (Scalar.invSqrtTwo : ℝ) ^ n = 2 ^ (-(n : ℝ) / 2) := by
  have hhalf : (0.5 : ℝ) = 2 ^ (-1 : ℝ) := by
    rw [Real.rpow_neg_one]
    norm_num
  change Real.sqrt 0.5 ^ n = _
  rw [Real.sqrt_eq_rpow, hhalf, ← Real.rpow_mul zero_le_two, ← Real.rpow_natCast,
    ← Real.rpow_mul zero_le_two]
  congr 1
  ring

/-- Full circles aside, the turns of all pairs are the angle of the transform and the excess. -/
lemma amplitude_eq_turns (n x y : Nat) : amplitude n x y * Complex.exp (excess n x y * Complex.I) =
    ((2 : ℝ) ^ (-(n : ℝ) / 2) : ℝ) * Complex.exp (angle turn n x y * Complex.I) := by
  rw [amplitude_eq, mul_assoc, ← Complex.exp_add]
  congr 1
  rw [Complex.exp_eq_exp_iff_exists_int]
  refine ⟨circles n x y, ?_⟩
  have hturns := congrArg Complex.ofReal (angle_turn n x y)
  have hproduct := congrArg Complex.ofReal (product_angle n x y)
  push_cast at hturns hproduct ⊢
  linear_combination Complex.I * hproduct - Complex.I * hturns

/-- The last stage, read at the reversed index. -/
lemma toComplex_stage (hx : x < 2 ^ n) (hy : y < 2 ^ n) :
    toComplex (stage n x n (beforeSwaps n (n / 2) y)) =
      ((2 : ℝ) ^ (-(n : ℝ) / 2) : ℝ) * Complex.exp (angle turn n x y * Complex.I) := by
  have hsupport : beforeSwaps n (n / 2) y / 2 ^ n = x / 2 ^ n := by
    rw [Nat.div_eq_of_lt (reversed_lt hy), Nat.div_eq_of_lt hx]
  have hfactor : ∀ i ∈ Finset.range n, toComplex (factor x (beforeSwaps n (n / 2) y) i n) =
      ((Scalar.invSqrtTwo : ℝ) : ℂ) * Complex.exp (∑ j ∈ Finset.Ico i n,
        ((if y.testBit (n - 1 - i) && x.testBit j then turn (j - i) else 0 : ℝ) : ℂ) *
          Complex.I) := by
    intro i hi
    rw [factor, map_mul, map_prod, Complex.exp_sum, toComplex_real,
      testBit_reversed (Finset.mem_range.mp hi)]
    congr 1
    refine Finset.prod_congr rfl fun j _ => ?_
    split
    · exact toComplex_polar _
    · rw [map_one, Complex.ofReal_zero, zero_mul, Complex.exp_zero]
  rw [stage, if_pos hsupport, map_prod, Finset.prod_congr rfl hfactor, Finset.prod_mul_distrib,
    Finset.prod_const, Finset.card_range, ← Complex.exp_sum, ← invSqrtTwo_pow, Complex.ofReal_pow,
    angle]
  congr 2
  push_cast
  rw [Finset.sum_mul]
  refine Finset.sum_congr rfl fun i _ => ?_
  rw [Finset.sum_mul]

end Amplitudes

section Circuit

lemma qftPlacements_eq (n : Nat) : Circuit.qftPlacements (α := ℝ) n =
    (List.range n).flatMap (qubitPlacements n) ++ swapPlacements n (n / 2) := rfl

/-- All gates of the circuit are placed inside the register. -/
lemma placed_qft {p : Circuit.Placement ℝ} (hp : p ∈ Circuit.qftPlacements n) : Placed n p := by
  rw [qftPlacements_eq, List.mem_append, List.mem_flatMap] at hp
  rcases hp with ⟨i, hi, hp⟩ | hp
  · have hi := List.mem_range.mp hi
    rcases List.mem_cons.mp hp with rfl | hp
    · exact ⟨by simp [StandardGate.parameters], rfl, List.nodup_singleton i, by simpa⟩
    · obtain ⟨j, hj, rfl⟩ := List.mem_map.mp hp
      obtain ⟨hij, hj⟩ := List.mem_range'_1.mp hj
      have hne : j ≠ i := by omega
      have hjn : j < n := by omega
      exact ⟨by simp [StandardGate.parameters], rfl, by simpa, by simp [hi, hjn]⟩
  · obtain ⟨(i : Nat), hi, rfl⟩ := List.mem_map.mp hp
    have hi := List.mem_range.mp hi
    have hne : i ≠ n - 1 - i := by omega
    have hin : i < n ∧ n - 1 - i < n := by omega
    exact ⟨by simp [StandardGate.parameters], rfl, by simpa, by simp [hin]⟩

lemma length_qftPlacements_le (n : Nat) :
    (Circuit.qftPlacements (α := ℝ) n).length ≤ n * n + n := by
  have hrow : ∀ k ∈ (List.range n).map fun i => (qubitPlacements n i).length, k ≤ n := by
    refine List.forall_mem_map.mpr fun i hi => ?_
    have hin := List.mem_range.mp hi
    simp only [qubitPlacements, List.length_cons, List.length_map, List.length_range']
    omega
  have hrows := List.sum_le_card_nsmul _ n hrow
  rw [List.length_map, List.length_range, smul_eq_mul] at hrows
  rw [qftPlacements_eq, List.length_append, List.length_flatMap, swapPlacements, List.length_map,
    List.length_range]
  omega

/-- The circuit turns every amplitude by the turns of its pairs. -/
lemma exists_qft (hn : n ≤ 63) (hx : x < 2 ^ n) (lookup : String → Option ℝ) :
    ∃ (c : Circuit ℝ) (t : Statevector ℝ), Circuit.qft n = .ok c ∧
      (Statevector.basis n x).applyGraph c.graph lookup = (t, .ok ()) ∧ t.WellFormed ∧
      t.numQubits = n ∧ ∀ y < 2 ^ n, toComplex (t.amp y) =
        ((2 : ℝ) ^ (-(n : ℝ) / 2) : ℝ) * Complex.exp (angle turn n x y * Complex.I) := by
  have hfew : (Circuit.qftPlacements (α := ℝ) n).length ≤ maxGates := by
    have hlength := length_qftPlacements_le n
    have hsquare := Nat.mul_le_mul hn hn
    rw [maxGates]
    omega
  obtain ⟨c, hc, happly⟩ := Circuit.ofPlacements_spec "qft" hn (fun _ => placed_qft) hfew
  have hwidth : (Statevector.basis n x : Statevector ℝ).WellFormed :=
    Statevector.wellFormed_basis n x
  obtain ⟨t, ht, hwf, htn, hamp⟩ := happly (.basis n x) lookup hwidth rfl
  refine ⟨c, t, hc, ht, hwf, htn, fun y hy => ?_⟩
  rw [hamp, qftPlacements_eq, List.foldl_append, foldl_swaps, ← stage_zero hx, foldl_phases le_rfl,
    toComplex_stage hx hy]

/-- The circuit is the Fourier transform on up to 32 qubits; on more it turns by the excess
besides. -/
theorem qft_amplitudes (hn : n ≤ 63) (hx : x < 2 ^ n) (lookup : String → Option ℝ) :
    ∃ (c : Circuit ℝ) (t : Statevector ℝ), Circuit.qft n = .ok c ∧
      (Statevector.basis n x).applyGraph c.graph lookup = (t, .ok ()) ∧ t.WellFormed ∧
      t.numQubits = n ∧
      (∀ y < 2 ^ n, toComplex (t.amp y) =
        amplitude n x y * Complex.exp (excess n x y * Complex.I)) ∧
      (n ≤ 32 → ∀ y < 2 ^ n, toComplex (t.amp y) = amplitude n x y) := by
  obtain ⟨c, t, hc, ht, hwf, htn, hamp⟩ := exists_qft hn hx lookup
  have hturned : ∀ y < 2 ^ n, toComplex (t.amp y) =
      amplitude n x y * Complex.exp (excess n x y * Complex.I) := fun y hy => by
    rw [hamp y hy, amplitude_eq_turns]
  refine ⟨c, t, hc, ht, hwf, htn, hturned, fun hsmall y hy => ?_⟩
  rw [hturned y hy, excess_eq_zero hsmall, Complex.ofReal_zero, zero_mul, Complex.exp_zero, mul_one]

/-- Two qubits, the first of them set. -/
theorem qft_amplitudes_two : 2 ≤ 63 ∧ 1 < 2 ^ 2 ∧ ∃ (c : Circuit ℝ) (t : Statevector ℝ),
    Circuit.qft 2 = .ok c ∧
      (Statevector.basis 2 1).applyGraph c.graph (fun _ => none) = (t, .ok ()) ∧
      ∀ y < 2 ^ 2, toComplex (t.amp y) = amplitude 2 1 y := by
  obtain ⟨c, t, hc, ht, -, -, -, hamp⟩ :=
    qft_amplitudes (n := 2) (x := 1) (by decide) (by decide) fun _ => none
  exact ⟨by decide, by decide, c, t, hc, ht, hamp (by decide)⟩

/-- The last of 33 qubits in the input and in the output are the only pair of bits that is set, and
their distance is beyond the bound. -/
lemma excess_farthest : excess 33 (2 ^ 32) (2 ^ 32) = Real.pi / 2 ^ 32 := by
  have hpair : ∀ i j : Nat, i < 33 →
      ((2 ^ 32).testBit (33 - 1 - i) && (2 ^ 32).testBit j) = decide (i = 0 ∧ j = 32) := by
    intro i j hi
    rw [Nat.testBit_two_pow, Nat.testBit_two_pow, ← Bool.decide_and]
    refine decide_eq_decide.mpr ?_
    omega
  rw [excess, angle, Finset.sum_eq_single_of_mem 0 (by decide),
    Finset.sum_eq_single_of_mem 32 (by decide), hpair 0 32 (by decide)]
  · change Real.pi / ((2 ^ 31 : Nat) : ℝ) - Real.pi / ((2 ^ 32 : Nat) : ℝ) = _
    push_cast
    ring
  · intro j _ hj
    rw [hpair 0 j (by decide), if_neg]
    simpa using hj
  · intro i hi hne
    refine Finset.sum_eq_zero fun j _ => ?_
    rw [hpair i j (Finset.mem_range.mp hi), if_neg]
    simp [hne]

/-- On 33 qubits the circuit is not the Fourier transform. -/
theorem qft_differs_farthest : ∃ (c : Circuit ℝ) (t : Statevector ℝ), Circuit.qft 33 = .ok c ∧
    (Statevector.basis 33 (2 ^ 32)).applyGraph c.graph (fun _ => none) = (t, .ok ()) ∧
      toComplex (t.amp (2 ^ 32)) ≠ amplitude 33 (2 ^ 32) (2 ^ 32) := by
  obtain ⟨c, t, hc, ht, -, -, hamp⟩ :=
    exists_qft (n := 33) (x := 2 ^ 32) (by decide) (by decide) fun _ => none
  refine ⟨c, t, hc, ht, ?_⟩
  rw [hamp (2 ^ 32) (by decide), ← amplitude_eq_turns, excess_farthest]
  have hroot : ((2 : ℝ) ^ (-((33 : Nat) : ℝ) / 2) : ℝ) ≠ 0 := by positivity
  have hne : amplitude 33 (2 ^ 32) (2 ^ 32) ≠ 0 := by
    rw [amplitude_eq]
    exact mul_ne_zero (Complex.ofReal_ne_zero.mpr hroot) (Complex.exp_ne_zero _)
  intro h
  have hone : Complex.exp ((Real.pi / 2 ^ 32 : ℝ) * Complex.I) = 1 := mul_left_cancel₀ hne (by
    rw [h, mul_one])
  have hsin : Real.sin (Real.pi / 2 ^ 32) = 0 := by
    rw [← Complex.exp_ofReal_mul_I_im, hone, Complex.one_im]
  have hpos : 0 < Real.sin (Real.pi / 2 ^ 32) := by
    apply Real.sin_pos_of_pos_of_lt_pi
    · positivity
    · exact div_lt_self Real.pi_pos (by norm_num)
  exact hpos.ne' hsin

end Circuit

end GateFusion.Fourier
