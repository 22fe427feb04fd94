import GateFusion.Proofs.Exact
import GateFusion.Proofs.Ordered
import Mathlib.Analysis.SpecialFunctions.Trigonometric.Basic

/-!
# Real numbers

The real numbers are exact scalars. Infinity and the undefined result, which they do not have, are
read as zero.
-/

namespace GateFusion

noncomputable instance : Exact ℝ where
  beq a b := decide (a = b)
  decidableLT := inferInstance
  decidableLE := inferInstance
  totalCmp := compare
  sqrt := Real.sqrt
  cos := Real.cos
  sin := Real.sin
  hypot x y := Real.sqrt (x * x + y * y)
  pi := Real.pi
  infinity := 0
  nan := 0
  beq_iff _ _ := decide_eq_true_iff
  transCmp := inferInstance
  lawfulEqCmp := inferInstance
  cos_add := Real.cos_add
  sin_add := Real.sin_add

instance : Ordered ℝ where
  le_trans _ _ _ := le_trans
  transCmp := inferInstance

end GateFusion
