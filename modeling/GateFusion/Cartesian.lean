import GateFusion.Scalar

/-!
# Complex numbers

A complex number is its real and its imaginary part. The operations spell out which products and
sums are formed and in which order, since that order is visible in rounded arithmetic.
-/

namespace GateFusion

/-- A complex number by its two parts. -/
structure Cartesian (α : Type) where
  re : α
  im : α

namespace Cartesian
variable {α : Type} [Scalar α]

instance : Zero (Cartesian α) := ⟨⟨0, 0⟩⟩
instance : One (Cartesian α) := ⟨⟨1, 0⟩⟩
instance : Add (Cartesian α) := ⟨fun a b => ⟨a.re + b.re, a.im + b.im⟩⟩
instance : Sub (Cartesian α) := ⟨fun a b => ⟨a.re - b.re, a.im - b.im⟩⟩
instance : Mul (Cartesian α) :=
  ⟨fun a b => ⟨a.re * b.re - a.im * b.im, a.re * b.im + a.im * b.re⟩⟩
instance : BEq (Cartesian α) := ⟨fun a b => a.re == b.re && a.im == b.im⟩

def real (x : α) : Cartesian α := ⟨x, 0⟩

def imag (x : α) : Cartesian α := ⟨0, x⟩

def polar (r t : α) : Cartesian α :=
  ⟨r * Scalar.cos t, r * Scalar.sin t⟩

def norm (z : Cartesian α) : α :=
  Scalar.hypot z.re z.im

def normSq (z : Cartesian α) : α :=
  z.re * z.re + z.im * z.im

def divReal (z : Cartesian α) (r : α) : Cartesian α :=
  ⟨z.re / r, z.im / r⟩

/-- Sum from left to right, starting at zero. -/
def sum (zs : List (Cartesian α)) : Cartesian α :=
  zs.foldl (· + ·) 0

/-- The rest of a power by squaring, once an odd exponent is reached: `acc` holds the factors
collected so far and `z` the current square. -/
def powOdd (acc z : Cartesian α) (e : Nat) : Cartesian α :=
  if e ≤ 1 then acc
  else
    let z := z * z
    powOdd (if e / 2 % 2 = 1 then acc * z else acc) z (e / 2)
termination_by e

/-- Power by repeated squaring: even exponents are halved first. -/
def pow (z : Cartesian α) (e : Nat) : Cartesian α :=
  if e = 0 then 1
  else if e % 2 = 0 then pow (z * z) (e / 2)
  else powOdd z z e
termination_by e

end Cartesian
end GateFusion
