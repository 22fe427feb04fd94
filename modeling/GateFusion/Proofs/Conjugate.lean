import Mathlib.Algebra.BigOperators.Group.Finset.Basic
import Mathlib.Algebra.Ring.Hom.Defs
import Mathlib.Tactic.LinearCombination
import GateFusion.Proofs.Exact

/-!
# Conjugates

The conjugate of a complex number and the square of its absolute value, which is the product of the
two.
-/

namespace GateFusion
variable {α : Type} [Exact α]

namespace Cartesian

@[simp] lemma real_re (x : α) : (real x).re = x := rfl

@[simp] lemma real_im (x : α) : (real x).im = 0 := rfl

@[simp] lemma imag_re (x : α) : (imag x).re = 0 := rfl

@[simp] lemma imag_im (x : α) : (imag x).im = x := rfl

/-- The complex conjugate. -/
def conj : Cartesian α →+* Cartesian α where
  toFun z := ⟨z.re, -z.im⟩
  map_zero' := by ext <;> simp
  map_one' := by ext <;> simp
  map_add' a b := by
    ext
    · rfl
    · exact neg_add a.im b.im
  map_mul' a b := by
    ext
    · simp only [mul_re]
      ring
    · simp only [mul_im]
      ring

@[simp] lemma conj_re (z : Cartesian α) : (conj z).re = z.re := rfl

@[simp] lemma conj_im (z : Cartesian α) : (conj z).im = -z.im := rfl

lemma conj_mul_self (z : Cartesian α) : conj z * z = real z.normSq := by
  ext
  · simp only [mul_re, conj_re, conj_im, real_re, normSq]
    ring
  · simp only [mul_im, conj_re, conj_im, real_im]
    ring

/-- Real numbers among the complex ones. -/
def realHom : α →+ Cartesian α where
  toFun := real
  map_zero' := rfl
  map_add' a b := by ext <;> simp

lemma real_sum_normSq (s : Finset Nat) (f : Nat → Cartesian α) :
    real (∑ i ∈ s, (f i).normSq) = ∑ i ∈ s, conj (f i) * f i := by
  simp only [conj_mul_self]
  exact map_sum realHom _ s

lemma real_add (x y : α) : real (x + y) = real x + real y := map_add realHom x y

lemma real_mul_real (x y : α) : real x * real y = real (x * y) := by ext <;> simp

lemma real_mul_imag (x y : α) : real x * imag y = imag (x * y) := by ext <;> simp

lemma imag_mul_real (x y : α) : imag x * real y = imag (x * y) := by ext <;> simp

lemma conj_real (x : α) : conj (real x) = real x := by ext <;> simp

lemma conj_imag (x : α) : conj (imag x) = imag (-x) := by ext <;> simp

lemma normSq_zero : (0 : Cartesian α).normSq = 0 := by simp [normSq]

lemma normSq_one : (1 : Cartesian α).normSq = 1 := by simp [normSq]

lemma normSq_real (x : α) : (real x).normSq = x * x := by simp [normSq]

lemma normSq_imag (x : α) : (imag x).normSq = x * x := by simp [normSq]

lemma normSq_conj (z : Cartesian α) : (conj z).normSq = z.normSq := by simp [normSq]

lemma normSq_mul (a b : Cartesian α) : (a * b).normSq = a.normSq * b.normSq := by
  simp only [normSq, mul_re, mul_im]
  ring

end Cartesian
end GateFusion
