import GateFusion.Proofs.Gate.Standard
import GateFusion.Proofs.Reals
import GateFusion.Proofs.State.Norm

/-!
# Standard gates are unitary

Every matrix of the standard library has orthonormal columns, whatever the values of its parameters.
Matrices with one entry in each column need entries of length one in different rows; the others are
rotations, of which the controlled ones act where the first qubit is set.
-/

namespace GateFusion
open Cartesian

/-- The constants and functions of gates: points at an angle lie on the unit circle, and the square
of `1/√2` is one half. -/
class Euclidean (α : Type) [Exact α] : Prop where
  circle : ∀ t : α, Scalar.cos t * Scalar.cos t + Scalar.sin t * Scalar.sin t = 1
  root : (Scalar.invSqrtTwo : α) * Scalar.invSqrtTwo = 0.5
  halves : (0.5 : α) + 0.5 = 1

noncomputable instance : Euclidean ℝ where
  circle t := by
    have h := Real.cos_sq_add_sin_sq t
    rwa [pow_two, pow_two] at h
  root := Real.mul_self_sqrt (by norm_num)
  halves := by norm_num

section Columns
variable {α : Type} [Exact α] {k : Nat} {m : Nat → Nat → Cartesian α}

section Single
variable {c r₀ : Nat} {z : Cartesian α}

/-- A column with one entry meets another column in its row only. -/
lemma sum_conj_single (hr₀ : r₀ < 2 ^ k) (hm : ∀ r, r < 2 ^ k → m r c = if r = r₀ then z else 0)
    (d : Nat) : ∑ r ∈ Finset.range (2 ^ k), conj (m r c) * m r d = conj z * m r₀ d := by
  have hterm : ∀ r ∈ Finset.range (2 ^ k), conj (m r c) * m r d =
      if r = r₀ then conj z * m r₀ d else 0 := by
    intro r hr
    rw [hm r (Finset.mem_range.mp hr)]
    by_cases hrow : r = r₀
    · rw [if_pos hrow, if_pos hrow, hrow]
    · rw [if_neg hrow, if_neg hrow, map_zero, zero_mul]
  rw [Finset.sum_congr rfl hterm, Finset.sum_ite_eq', if_pos (Finset.mem_range.mpr hr₀)]

lemma sum_mul_single (hr₀ : r₀ < 2 ^ k) (hm : ∀ r, r < 2 ^ k → m r c = if r = r₀ then z else 0)
    (d : Nat) : ∑ r ∈ Finset.range (2 ^ k), conj (m r d) * m r c = conj (m r₀ d) * z := by
  have hterm : ∀ r ∈ Finset.range (2 ^ k), conj (m r d) * m r c =
      if r = r₀ then conj (m r₀ d) * z else 0 := by
    intro r hr
    rw [hm r (Finset.mem_range.mp hr)]
    by_cases hrow : r = r₀
    · rw [if_pos hrow, if_pos hrow, hrow]
    · rw [if_neg hrow, if_neg hrow, mul_zero]
  rw [Finset.sum_congr rfl hterm, Finset.sum_ite_eq', if_pos (Finset.mem_range.mpr hr₀)]

end Single

/-- A matrix with one entry of length one in every column and row. -/
lemma unitary_of_entries {f : Nat → Nat} {p : Nat → Cartesian α}
    (hlt : ∀ c, c < 2 ^ k → f c < 2 ^ k)
    (hinj : ∀ c d, c < 2 ^ k → d < 2 ^ k → f c = f d → c = d)
    (hp : ∀ c, c < 2 ^ k → conj (p c) * p c = 1)
    (hm : ∀ r c, r < 2 ^ k → c < 2 ^ k → m r c = if r = f c then p c else 0) : Unitary k m := by
  intro c d hc hd
  rw [sum_conj_single (hlt c hc) (fun r hr => hm r c hr hc), hm (f c) d (hlt c hc) hd]
  by_cases hcd : c = d
  · rw [if_pos hcd, ← hcd, if_pos rfl]
    exact hp c hc
  · rw [if_neg hcd, if_neg fun h => hcd (hinj c d hc hd h), mul_zero]

end Columns

lemma Cartesian.normSq_polar {α : Type} [Exact α] [Euclidean α] (t : α) :
    (polar 1 t).normSq = 1 := by
  simp only [normSq, polar]
  linear_combination Euclidean.circle t

namespace Quad
variable {α : Type} [Exact α] {v : String → α}

/-- The columns of a one-qubit matrix are orthonormal. -/
structure Unitary (m : Quad α) (v : String → α) : Prop where
  first : conj (m.e00.value v) * m.e00.value v + conj (m.e10.value v) * m.e10.value v = 1
  second : conj (m.e01.value v) * m.e01.value v + conj (m.e11.value v) * m.e11.value v = 1
  cross : conj (m.e00.value v) * m.e01.value v + conj (m.e10.value v) * m.e11.value v = 0

section Place
variable {m : Quad α}

lemma Unitary.cross_symm (hm : m.Unitary v) :
    conj (m.e01.value v) * m.e00.value v + conj (m.e11.value v) * m.e10.value v = 0 := by
  have hcross := hm.cross
  have hre := congrArg Cartesian.re hcross
  have him := congrArg Cartesian.im hcross
  simp only [add_re, add_im, mul_re, mul_im, conj_re, conj_im, zero_re, zero_im] at hre him
  ext
  · simp only [add_re, mul_re, conj_re, conj_im, zero_re]
    linear_combination hre
  · simp only [add_im, mul_im, conj_re, conj_im, zero_im]
    linear_combination -him

/-- The inner product of two columns. -/
lemma Unitary.columns (hm : m.Unitary v) {c d : Nat} (hc : c < 2) (hd : d < 2) :
    conj ((m.entry 0 c).value v) * (m.entry 0 d).value v +
      conj ((m.entry 1 c).value v) * (m.entry 1 d).value v = if c = d then 1 else 0 := by
  obtain rfl | rfl : c = 0 ∨ c = 1 := by omega
  · obtain rfl | rfl : d = 0 ∨ d = 1 := by omega
    · exact hm.first
    · exact hm.cross
  · obtain rfl | rfl : d = 0 ∨ d = 1 := by omega
    · exact hm.cross_symm
    · exact hm.second

theorem Unitary.single (hm : m.Unitary v) : GateFusion.Unitary 1 (m.single.value v) := by
  intro c d hc hd
  have hvalue : ∀ r c, r < 2 ^ 1 → c < 2 ^ 1 →
      m.single.value v r c = (m.entry r c).value v := by
    intro r c hr hc
    rw [Quad.single, GateMatrix.value_ofFn hr hc]
  have hrange : Finset.range (2 ^ 1) = {0, 1} := by decide
  rw [hrange, Finset.sum_pair (by decide), hvalue 0 c (by decide) hc, hvalue 0 d (by decide) hd,
    hvalue 1 c (by decide) hc, hvalue 1 d (by decide) hd]
  exact hm.columns hc hd

/-- The one-qubit matrix acts where the first qubit is set. -/
lemma value_controlled (m : Quad α) (v : String → α) {r c : Nat} (hr : r < 2 ^ 2) (hc : c < 2 ^ 2) :
    m.controlled.value v r c =
      if r % 2 = 1 ∧ c % 2 = 1 then (m.entry (r / 2) (c / 2)).value v
      else if r = c then 1 else 0 := by
  rw [Quad.controlled, GateMatrix.value_ofFn hr hc]
  split
  · rfl
  · split
    · exact Entry.value_one v
    · exact Entry.value_zero v

/-- Columns where the first qubit is set multiply like those of the one-qubit matrix. -/
lemma Unitary.controlled_columns (hm : m.Unitary v) {c d : Nat} (hc : c < 2 ^ 2) (hd : d < 2 ^ 2)
    (hc' : c % 2 = 1) (hd' : d % 2 = 1) : ∑ r ∈ Finset.range (2 ^ 2),
      conj (m.controlled.value v r c) * m.controlled.value v r d = if c = d then 1 else 0 := by
  have hclear : ∀ r, r < 2 ^ 2 → r % 2 = 0 → m.controlled.value v r c = 0 := by
    intro r hr hr'
    rw [value_controlled m v hr hc, if_neg (by omega), if_neg (by omega)]
  have hset : ∀ r c, r < 2 ^ 2 → c < 2 ^ 2 → r % 2 = 1 → c % 2 = 1 →
      m.controlled.value v r c = (m.entry (r / 2) (c / 2)).value v := by
    intro r c hr hc hr' hc'
    rw [value_controlled m v hr hc, if_pos ⟨hr', hc'⟩]
  have hrange : Finset.range (2 ^ 2) = {0, 1, 2, 3} := by decide
  have hiff : c / 2 = d / 2 ↔ c = d := by omega
  have hcolumns := hm.columns (c := c / 2) (d := d / 2) (by omega) (by omega)
  simp only [hiff] at hcolumns
  rw [hrange, Finset.sum_insert (by decide), Finset.sum_insert (by decide),
    Finset.sum_pair (by decide), hclear 0 (by decide) rfl, hclear 2 (by decide) rfl,
    hset 1 c (by decide) hc rfl hc', hset 1 d (by decide) hd rfl hd',
    hset 3 c (by decide) hc rfl hc', hset 3 d (by decide) hd rfl hd', map_zero, zero_mul, zero_mul,
    zero_add, zero_add]
  exact hcolumns

/-- A column where the first qubit is clear is one of the identity. -/
lemma value_controlled_clear (m : Quad α) (v : String → α) {c : Nat} (hc : c < 2 ^ 2)
    (hc' : c % 2 = 0) {r : Nat} (hr : r < 2 ^ 2) :
    m.controlled.value v r c = if r = c then 1 else 0 := by
  rw [value_controlled m v hr hc, if_neg (by omega)]

theorem Unitary.controlled (hm : m.Unitary v) : GateFusion.Unitary 2 (m.controlled.value v) := by
  intro c d hc hd
  obtain hc' | hc' := Nat.mod_two_eq_zero_or_one c
  · rw [sum_conj_single hc (fun r hr => value_controlled_clear m v hc hc' hr), map_one, one_mul,
      value_controlled m v hc hd, if_neg (by omega)]
  · obtain hd' | hd' := Nat.mod_two_eq_zero_or_one d
    · have hne : d ≠ c := by omega
      rw [sum_mul_single hd (fun r hr => value_controlled_clear m v hd hd' hr), mul_one,
        value_controlled m v hd hc, if_neg (by omega), if_neg hne, if_neg hne.symm, map_zero]
    · exact hm.controlled_columns hc hd hc' hd'

end Place

section Values

lemma value_ofAtom (t : Atom α) : (Entry.ofPolynomial (.ofAtom t)).value v = t.value v := by
  rw [(Entry.ofPolynomial_spec _).1, (Polynomial.ofAtom_spec t).1]

lemma value_scaled (t : Atom α) (c : Cartesian α) :
    (Entry.ofPolynomial ((Polynomial.ofAtom t).scale c)).value v = t.value v * c := by
  rw [Entry.value_ofPolynomial_scale, (Polynomial.ofAtom_spec t).1]

lemma value_product (t u : Atom α) :
    (Entry.ofPolynomial ((Polynomial.ofAtom t).mul (.ofAtom u))).value v =
      t.value v * u.value v := by
  rw [(Entry.ofPolynomial_spec _).1, Polynomial.value_mul_ofAtom]

lemma value_scaledProduct (t u : Atom α) (c : Cartesian α) :
    (Entry.ofPolynomial (((Polynomial.ofAtom t).mul (.ofAtom u)).scale c)).value v =
      t.value v * u.value v * c := by
  rw [Entry.value_ofPolynomial_scale, Polynomial.value_mul_ofAtom]

lemma value_cosEntry (a : Angle α) (x : α) :
    (cosEntry a (real x)).value v = real (Scalar.cos (a.value v) * x) :=
  (value_scaled (.cos a) (real x)).trans (real_mul_real _ _)

lemma value_sinEntry (a : Angle α) (c : Cartesian α) :
    (sinEntry a c).value v = real (Scalar.sin (a.value v)) * c :=
  value_scaled (.sin a) c

lemma value_expiEntry (a : Angle α) : (expiEntry a).value v = polar 1 (a.value v) :=
  value_ofAtom (.expi a)

end Values

/-- A matrix is unitary if its first column has length one and the second is the first turned by a
right angle, up to a phase. -/
lemma Unitary.of_column {m : Quad α} (w : Cartesian α) (hw : w.normSq = 1)
    (hfirst : (m.e00.value v).normSq + (m.e10.value v).normSq = 1)
    (h01 : m.e01.value v = real (-1) * (conj (m.e10.value v) * w))
    (h11 : m.e11.value v = conj (m.e00.value v) * w) : m.Unitary v := by
  have hcolumn :
      conj (m.e00.value v) * m.e00.value v + conj (m.e10.value v) * m.e10.value v = 1 := by
    rw [conj_mul_self, conj_mul_self, ← real_add, hfirst]
    rfl
  constructor
  case first => exact hcolumn
  case second =>
    rw [conj_mul_self, conj_mul_self, h01, h11, ← real_add, normSq_mul, normSq_mul, normSq_mul,
      normSq_conj, normSq_conj, normSq_real, hw]
    have hsum : -1 * -1 * ((m.e10.value v).normSq * 1) + (m.e00.value v).normSq * 1 = (1 : α) := by
      linear_combination hfirst
    rw [hsum]
    rfl
  case cross =>
    have hcancel : real (-1 : α) + 1 = 0 := by
      ext
      · exact neg_add_cancel 1
      · exact add_zero 0
    rw [h01, h11]
    calc conj (m.e00.value v) * (real (-1) * (conj (m.e10.value v) * w)) +
          conj (m.e10.value v) * (conj (m.e00.value v) * w)
        = (real (-1) + 1) * (conj (m.e00.value v) * conj (m.e10.value v) * w) := by ring
      _ = 0 := by rw [hcancel, zero_mul]

/-- A diagonal matrix with entries of length one. -/
lemma Unitary.of_diagonal {m : Quad α} (h01 : m.e01.value v = 0) (h10 : m.e10.value v = 0)
    (h00 : (m.e00.value v).normSq = 1) (h11 : (m.e11.value v).normSq = 1) : m.Unitary v := by
  apply Unitary.of_column (m.e00.value v * m.e11.value v)
  · rw [normSq_mul, h00, h11, one_mul]
  · rw [h10, h00, normSq_zero, add_zero]
  · rw [h01, h10, map_zero, zero_mul, mul_zero]
  · rw [← mul_assoc, conj_mul_self, h00]
    exact (one_mul _).symm

lemma unitary_numeric {a b c d : Cartesian α} (w : Cartesian α) (hw : w.normSq = 1)
    (hfirst : a.normSq + c.normSq = 1) (hb : b = real (-1) * (conj c * w)) (hd : d = conj a * w) :
    (numeric a b c d).Unitary v :=
  .of_column w hw hfirst hb hd

lemma unitary_diagonal {a d : Cartesian α} (ha : a.normSq = 1) (hd : d.normSq = 1) :
    (diagonal a d).Unitary v :=
  .of_diagonal rfl rfl ha hd

lemma unitary_pauliX : (pauliX : Quad α).Unitary v := by
  apply unitary_numeric (real (-1))
  · rw [normSq_real, neg_mul_neg, one_mul]
  · rw [normSq_real, normSq_real, zero_mul, one_mul, zero_add]
  · rw [conj_real, real_mul_real, real_mul_real, one_mul, neg_mul_neg, one_mul]
  · rw [conj_real, real_mul_real, zero_mul]

lemma unitary_pauliY : (pauliY : Quad α).Unitary v := by
  apply unitary_numeric (real (-1))
  · rw [normSq_real, neg_mul_neg, one_mul]
  · rw [normSq_imag, normSq_imag, zero_mul, one_mul, zero_add]
  · rw [conj_imag, imag_mul_real, real_mul_imag, neg_mul_neg, one_mul, mul_one]
  · rw [conj_imag, imag_mul_real, neg_zero, zero_mul]

lemma unitary_pauliZ : (pauliZ : Quad α).Unitary v := by
  apply unitary_diagonal
  · rw [normSq_real, one_mul]
  · rw [normSq_real, neg_mul_neg, one_mul]

section Rotations
variable [Euclidean α]

lemma unitary_hadamard : (hadamard : Quad α).Unitary v := by
  have hroot := Euclidean.root (α := α)
  have hhalves := Euclidean.halves (α := α)
  apply unitary_numeric (real (-1))
  · rw [normSq_real, neg_mul_neg, one_mul]
  · rw [normSq_real, one_mul, hroot, hhalves]
  · rw [conj_real, real_mul_real, real_mul_real]
    congr 1
    ring
  · rw [conj_real, real_mul_real]
    congr 1
    ring

lemma unitary_sqrtX : (sqrtX : Quad α).Unitary v := by
  have hhalves := Euclidean.halves (α := α)
  apply unitary_numeric (imag 1)
  · rw [normSq_imag, one_mul]
  · simp only [normSq]
    linear_combination (2 * 0.5 + 1) * hhalves
  · ext
    · simp
    · simp
  · ext
    · simp
    · simp

lemma unitary_rotateX (theta : Angle α) : (rotateX theta).Unitary v := by
  have h := Euclidean.circle ((theta.scale 0.5).value v)
  have h00 : (rotateX theta).e00.value v = _ := value_cosEntry (theta.scale 0.5) 1
  have h01 : (rotateX theta).e01.value v = _ := value_sinEntry (theta.scale 0.5) (imag (-1))
  have h10 : (rotateX theta).e10.value v = _ := value_sinEntry (theta.scale 0.5) (imag (-1))
  have h11 : (rotateX theta).e11.value v = _ := value_cosEntry (theta.scale 0.5) 1
  rw [real_mul_imag] at h01 h10
  apply Unitary.of_column 1 normSq_one
  · rw [h00, h10, normSq_real, normSq_imag]
    linear_combination h
  · rw [h01, h10, conj_imag, mul_one, real_mul_imag]
    congr 1
    ring
  · rw [h00, h11, conj_real]
    exact (mul_one _).symm

lemma unitary_rotateY (theta : Angle α) : (rotateY theta).Unitary v := by
  have h := Euclidean.circle ((theta.scale 0.5).value v)
  have h00 : (rotateY theta).e00.value v = _ := value_cosEntry (theta.scale 0.5) 1
  have h01 : (rotateY theta).e01.value v = _ := value_sinEntry (theta.scale 0.5) (real (-1))
  have h10 : (rotateY theta).e10.value v = _ := value_sinEntry (theta.scale 0.5) (real 1)
  have h11 : (rotateY theta).e11.value v = _ := value_cosEntry (theta.scale 0.5) 1
  rw [real_mul_real] at h01 h10
  apply Unitary.of_column 1 normSq_one
  · rw [h00, h10, normSq_real, normSq_real]
    linear_combination h
  · rw [h01, h10, conj_real, mul_one, real_mul_real]
    congr 1
    ring
  · rw [h00, h11, conj_real]
    exact (mul_one _).symm

lemma unitary_rotateZ (theta : Angle α) : (rotateZ theta).Unitary v := by
  have h00 : (rotateZ theta).e00.value v = _ := value_expiEntry ((theta.scale 0.5).scale (-1))
  have h11 : (rotateZ theta).e11.value v = _ := value_expiEntry (theta.scale 0.5)
  apply Unitary.of_diagonal rfl rfl
  · rw [h00, normSq_polar]
  · rw [h11, normSq_polar]

lemma unitary_phase (lambda : Angle α) : (phase lambda).Unitary v := by
  have h11 : (phase lambda).e11.value v = _ := value_expiEntry lambda
  apply Unitary.of_diagonal rfl rfl
  · exact normSq_one
  · rw [h11, normSq_polar]

/-- The second column is the first one turned by a right angle and multiplied by both phases. -/
lemma unitary_universal (theta phi lambda : Angle α) : (universal theta phi lambda).Unitary v := by
  have h := Euclidean.circle ((theta.scale 0.5).value v)
  have h00 : (universal theta phi lambda).e00.value v =
      real (Scalar.cos ((theta.scale 0.5).value v)) := value_ofAtom (.cos (theta.scale 0.5))
  have h01 : (universal theta phi lambda).e01.value v = polar 1 (lambda.value v) *
      real (Scalar.sin ((theta.scale 0.5).value v)) * real (-1) :=
    value_scaledProduct (.expi lambda) (.sin (theta.scale 0.5)) (real (-1))
  have h10 : (universal theta phi lambda).e10.value v =
      polar 1 (phi.value v) * real (Scalar.sin ((theta.scale 0.5).value v)) :=
    value_product (.expi phi) (.sin (theta.scale 0.5))
  have h11 : (universal theta phi lambda).e11.value v =
      polar 1 ((phi.add lambda).value v) * real (Scalar.cos ((theta.scale 0.5).value v)) :=
    value_product (.expi (phi.add lambda)) (.cos (theta.scale 0.5))
  have hphi : conj (polar 1 (phi.value v)) * polar 1 (phi.value v) = 1 := by
    rw [conj_mul_self, normSq_polar]
    rfl
  rw [Angle.value_add, polar_add] at h11
  apply Unitary.of_column (polar 1 (phi.value v) * polar 1 (lambda.value v))
  · rw [normSq_mul, normSq_polar, normSq_polar, one_mul]
  · rw [h00, h10, normSq_mul, normSq_polar, normSq_real, normSq_real]
    linear_combination h
  · rw [h01, h10, map_mul, conj_real]
    calc polar 1 (lambda.value v) * real (Scalar.sin ((theta.scale 0.5).value v)) * real (-1)
        = real (-1) * (1 * real (Scalar.sin ((theta.scale 0.5).value v)) *
            polar 1 (lambda.value v)) := by ring
      _ = real (-1) * (conj (polar 1 (phi.value v)) *
            real (Scalar.sin ((theta.scale 0.5).value v)) *
              (polar 1 (phi.value v) * polar 1 (lambda.value v))) := by
          rw [← hphi]
          ring
  · rw [h00, h11, conj_real, mul_comm]

end Rotations
end Quad

namespace StandardGate
variable {α : Type} [Exact α] {v : String → α}

/-- A matrix that permutes the basis states. -/
lemma unitary_permutation {k : Nat} {f : Nat → Nat} (hlt : ∀ c, c < 2 ^ k → f c < 2 ^ k)
    (hinj : ∀ c, c < 2 ^ k → ∀ d, d < 2 ^ k → f c = f d → c = d) :
    GateFusion.Unitary k ((permutation k f : GateMatrix α).value v) := by
  apply unitary_of_entries (f := f) (p := fun _ => 1) hlt
  · exact fun c d hc hd => hinj c hc d hd
  · intro c _
    rw [map_one, mul_one]
  · intro r c hr hc
    rw [permutation, GateMatrix.value_ofFn hr hc]
    split
    · exact Entry.value_one v
    · exact Entry.value_zero v

/-- The matrix of a gate with parameters is unitary if it is for all angles. -/
lemma unitary_of_angle {e : Expr α} {k : Nat} {f : Angle α → GateMatrix α} {m : GateMatrix α}
    (hf : ∀ a, GateFusion.Unitary k ((f a).value v))
    (h : (angle e >>= fun a => pure (f a) : Except (CircuitError α) (GateMatrix α)) = .ok m) :
    GateFusion.Unitary k (m.value v) := by
  obtain ⟨a, -, h⟩ := bind_eq_ok.mp h
  exact Except.ok.inj h ▸ hf a

variable [Euclidean α]

lemma unitary_rotateZZ (theta : Angle α) : GateFusion.Unitary 2 ((rotateZZ theta).value v) := by
  apply unitary_of_entries (f := fun c => c) (p := fun c => if c = 0 ∨ c = 3
    then polar 1 (((theta.scale 0.5).scale (-1)).value v) else polar 1 ((theta.scale 0.5).value v))
  · exact fun c hc => hc
  · exact fun c d _ _ h => h
  · intro c _
    split
    · rw [conj_mul_self, normSq_polar]
      rfl
    · rw [conj_mul_self, normSq_polar]
      rfl
  · intro r c hr hc
    rw [rotateZZ, GateMatrix.value_ofFn hr hc]
    by_cases hrow : r = c
    · rw [if_neg (not_not_intro hrow), if_pos hrow, hrow]
      split
      · exact Quad.value_expiEntry _
      · exact Quad.value_expiEntry _
    · rw [if_pos hrow, if_neg hrow]
      exact Entry.value_zero v

/-- Every standard gate has a unitary matrix, whatever the values of its parameters. -/
theorem unitary_matrix {g : StandardGate α} {m : GateMatrix α} (h : g.matrix = .ok m)
    (v : String → α) : GateFusion.Unitary g.numQubits (m.value v) := by
  cases g with
  | id =>
    obtain rfl := Except.ok.inj h
    apply Quad.Unitary.single
    apply Quad.unitary_diagonal normSq_one normSq_one
  | x =>
    obtain rfl := Except.ok.inj h
    exact Quad.unitary_pauliX.single
  | y =>
    obtain rfl := Except.ok.inj h
    exact Quad.unitary_pauliY.single
  | z =>
    obtain rfl := Except.ok.inj h
    exact Quad.unitary_pauliZ.single
  | h =>
    obtain rfl := Except.ok.inj h
    exact Quad.unitary_hadamard.single
  | s | sdg =>
    obtain rfl := Except.ok.inj h
    apply Quad.Unitary.single
    apply Quad.unitary_diagonal normSq_one
    simp [normSq_imag]
  | t | tdg =>
    obtain rfl := Except.ok.inj h
    apply Quad.Unitary.single
    exact Quad.unitary_diagonal normSq_one (normSq_polar _)
  | sx =>
    obtain rfl := Except.ok.inj h
    exact Quad.unitary_sqrtX.single
  | rx e => exact unitary_of_angle (fun a => (Quad.unitary_rotateX a).single) h
  | ry e => exact unitary_of_angle (fun a => (Quad.unitary_rotateY a).single) h
  | rz e => exact unitary_of_angle (fun a => (Quad.unitary_rotateZ a).single) h
  | p e => exact unitary_of_angle (fun a => (Quad.unitary_phase a).single) h
  | u e₁ e₂ e₃ =>
    obtain ⟨a, -, h⟩ := bind_eq_ok.mp h
    obtain ⟨b, -, h⟩ := bind_eq_ok.mp h
    exact unitary_of_angle (fun c => (Quad.unitary_universal a b c).single) h
  | cx =>
    obtain rfl := Except.ok.inj h
    exact Quad.unitary_pauliX.controlled
  | cy =>
    obtain rfl := Except.ok.inj h
    exact Quad.unitary_pauliY.controlled
  | cz =>
    obtain rfl := Except.ok.inj h
    exact Quad.unitary_pauliZ.controlled
  | ch =>
    obtain rfl := Except.ok.inj h
    exact Quad.unitary_hadamard.controlled
  | crx e => exact unitary_of_angle (fun a => (Quad.unitary_rotateX a).controlled) h
  | cry e => exact unitary_of_angle (fun a => (Quad.unitary_rotateY a).controlled) h
  | crz e => exact unitary_of_angle (fun a => (Quad.unitary_rotateZ a).controlled) h
  | cp e => exact unitary_of_angle (fun a => (Quad.unitary_phase a).controlled) h
  | rzz e => exact unitary_of_angle unitary_rotateZZ h
  | swap =>
    obtain rfl := Except.ok.inj h
    exact unitary_permutation (k := 2) (by decide) (by decide)
  | ccx =>
    obtain rfl := Except.ok.inj h
    exact unitary_permutation (k := 3) (by decide) (by decide)
  | cswap =>
    obtain rfl := Except.ok.inj h
    exact unitary_permutation (k := 3) (by decide) (by decide)

end StandardGate

namespace Gate
variable {α : Type}

lemma eq_of_ofMatrix {name : String} {qs : List Qubit} {m : GateMatrix α} {gate : Gate α}
    (h : ofMatrix name qs m = .ok gate) : gate = ⟨name, qs, m⟩ := by
  unfold ofMatrix at h
  obtain ⟨-, -, h⟩ := bind_eq_ok.mp h
  split at h
  · nomatch h
  · split at h
    · exact (Except.ok.inj h).symm
    · nomatch h

/-- Gates of the standard library are unitary. -/
theorem unitary_of_standard [Exact α] [Euclidean α] {g : StandardGate α} {qs : List Qubit}
    {gate : Gate α} (h : standard g qs = .ok gate) (v : String → α) :
    Unitary gate.qubits.length (gate.matrix.value v) := by
  unfold standard at h
  split at h
  · rename_i hlen
    obtain ⟨m, hm, h⟩ := bind_eq_ok.mp h
    obtain rfl := eq_of_ofMatrix h
    rw [hlen]
    exact StandardGate.unitary_matrix hm v
  · nomatch h

end Gate
end GateFusion
