import Mathlib.Algebra.BigOperators.Group.List.Basic
import Mathlib.Algebra.Ring.Basic
import Mathlib.Tactic.Ring
import GateFusion.Cartesian

/-!
# Exact arithmetic

Statements about values read the scalars as exact numbers: a commutative ring with comparisons that
tell equal numbers from different ones. Of cosine and sine only the addition theorems are asked for,
which say that `exp (i·(a + b)) = exp (i·a) · exp (i·b)`.
-/

namespace GateFusion

/-- Scalars without rounding. -/
class Exact (α : Type) extends CommRing α, Scalar α where
  beq_iff : ∀ a b : α, (a == b) = true ↔ a = b
  transCmp : Std.TransCmp totalCmp
  lawfulEqCmp : Std.LawfulEqCmp totalCmp
  cos_add : ∀ a b : α, cos (a + b) = cos a * cos b - sin a * sin b
  sin_add : ∀ a b : α, sin (a + b) = sin a * cos b + cos a * sin b

variable {α : Type} [Exact α]

instance Exact.lawfulBEq : LawfulBEq α where
  eq_of_beq h := (Exact.beq_iff _ _).mp h
  rfl := (Exact.beq_iff _ _).mpr rfl

instance : Std.TransCmp (Scalar.totalCmp (α := α)) := Exact.transCmp

instance : Std.LawfulEqCmp (Scalar.totalCmp (α := α)) := Exact.lawfulEqCmp

lemma Scalar.cos_add (a b : α) : cos (a + b) = cos a * cos b - sin a * sin b := Exact.cos_add a b

lemma Scalar.sin_add (a b : α) : sin (a + b) = sin a * cos b + cos a * sin b := Exact.sin_add a b

/-- Summing from the left is the sum; the negated zero it starts with is zero. -/
lemma Scalar.sum_eq (xs : List α) : Scalar.sum xs = xs.sum := by
  rw [Scalar.sum, List.sum_eq_foldl, neg_zero]

namespace Cartesian

omit [Exact α] in
@[ext] lemma ext {a b : Cartesian α} (hre : a.re = b.re) (him : a.im = b.im) : a = b := by
  cases a
  cases b
  exact congrArg₂ mk hre him

@[simp] lemma zero_re : (0 : Cartesian α).re = 0 := rfl

@[simp] lemma zero_im : (0 : Cartesian α).im = 0 := rfl

@[simp] lemma one_re : (1 : Cartesian α).re = 1 := rfl

@[simp] lemma one_im : (1 : Cartesian α).im = 0 := rfl

@[simp] lemma add_re (a b : Cartesian α) : (a + b).re = a.re + b.re := rfl

@[simp] lemma add_im (a b : Cartesian α) : (a + b).im = a.im + b.im := rfl

@[simp] lemma mul_re (a b : Cartesian α) : (a * b).re = a.re * b.re - a.im * b.im := rfl

@[simp] lemma mul_im (a b : Cartesian α) : (a * b).im = a.re * b.im + a.im * b.re := rfl

/-- Exact complex numbers form a commutative semiring. -/
instance : CommSemiring (Cartesian α) where
  add_assoc a b c := by ext <;> simp [add_assoc]
  zero_add a := by ext <;> simp
  add_zero a := by ext <;> simp
  add_comm a b := by ext <;> simp [add_comm]
  left_distrib a b c := by
    ext
    · simp only [mul_re, add_re, add_im]
      ring
    · simp only [mul_im, add_re, add_im]
      ring
  right_distrib a b c := by
    ext
    · simp only [mul_re, add_re, add_im]
      ring
    · simp only [mul_im, add_re, add_im]
      ring
  zero_mul a := by ext <;> simp
  mul_zero a := by ext <;> simp
  mul_assoc a b c := by
    ext
    · simp only [mul_re, mul_im]
      ring
    · simp only [mul_re, mul_im]
      ring
  one_mul a := by ext <;> simp
  mul_one a := by ext <;> simp
  mul_comm a b := by
    ext
    · simp only [mul_re, mul_comm]
    · simp only [mul_im]
      ring
  nsmul := nsmulRec

instance : LawfulBEq (Cartesian α) where
  eq_of_beq {a b} h := by
    have h : (a.re == b.re && a.im == b.im) = true := h
    rw [Bool.and_eq_true] at h
    exact ext (eq_of_beq h.1) (eq_of_beq h.2)
  rfl {a} := by
    change (a.re == a.re && a.im == a.im) = true
    simp

/-- Summing from the left is the sum. -/
lemma sum_eq (zs : List (Cartesian α)) : sum zs = zs.sum := by
  rw [sum, List.sum_eq_foldl]

/-- The angles of numbers of length one add up in a product. -/
lemma polar_add (a b : α) : polar 1 (a + b) = polar 1 a * polar 1 b := by
  ext
  · simp only [polar, one_mul, mul_re, Scalar.cos_add]
  · simp only [polar, one_mul, mul_im, Scalar.sin_add, add_comm]

lemma polar_nsmul (a : α) (k : Nat) : polar 1 (a * (k + 1 : Nat)) = polar 1 a ^ (k + 1) := by
  induction k with
  | zero => simp
  | succ k ih =>
    have hsplit : a * ((k + 1 + 1 : Nat) : α) = a * ((k + 1 : Nat) : α) + a := by
      push_cast
      ring
    rw [hsplit, polar_add, ih, pow_succ _ (k + 1)]

/-- The rest of a power by squaring multiplies by what the lowest bit does not account for. -/
lemma powOdd_eq (acc z : Cartesian α) (e : Nat) : powOdd acc z e = acc * z ^ (e / 2 * 2) := by
  induction e using Nat.strong_induction_on generalizing acc z with
  | h e ih =>
    rw [powOdd]
    split
    · rename_i he
      have hzero : e / 2 = 0 := by omega
      rw [hzero, Nat.zero_mul, pow_zero, mul_one]
    · rename_i he
      rw [ih (e / 2) (by omega)]
      have hsq : ∀ k, (z * z) ^ k = z ^ (k * 2) := fun k => by rw [← pow_two, ← pow_mul, mul_comm]
      rw [hsq]
      split
      · rename_i hodd
        have hsum : e / 2 * 2 = 2 + e / 2 / 2 * 2 * 2 := by omega
        rw [hsum, pow_add, pow_two, mul_assoc]
      · rename_i heven
        have hsum : e / 2 * 2 = e / 2 / 2 * 2 * 2 := by omega
        rw [hsum]

lemma pow_eq (z : Cartesian α) (e : Nat) : z.pow e = z ^ e := by
  induction e using Nat.strong_induction_on generalizing z with
  | h e ih =>
    rw [pow]
    split
    · rename_i he
      rw [he, pow_zero]
    · split
      · rename_i he heven
        rw [ih (e / 2) (by omega), ← pow_two, ← pow_mul, Nat.mul_div_cancel' (by omega)]
      · rename_i he hodd
        rw [powOdd_eq]
        have hsum : e = 1 + e / 2 * 2 := by omega
        conv_rhs => rw [hsum, pow_add, pow_one]

end Cartesian
end GateFusion
