import GateFusion.Binary64.Rounding

/-!
# Hypotenuse

The square root of a sum of two squares, rounded once: the sum is formed exactly and its integer
square root is taken at 64 bits or more, so that only the last step rounds.
-/

namespace GateFusion.Binary64

/-- The double nearest to `√(a² + b²)` for finite `a` and `b`. -/
def hypotFinite (a b : Float) : Float :=
  let p := parts a
  let q := parts b
  let e := min p.exponent q.exponent
  let x := p.mantissa * Nat.pow 2 (p.exponent - e).toNat
  let y := q.mantissa * Nat.pow 2 (q.exponent - e).toNat
  let square := x * x + y * y
  -- The root of `square · 4^up / 4^down` has at least 64 bits.
  let up := (130 - square.log2) / 2
  let down := (square.log2 - 130) / 2
  let scaled := square * Nat.pow 4 up / Nat.pow 4 down
  let root := scaled.sqrt
  let inexact := root * root != scaled || square * Nat.pow 4 up % Nat.pow 4 down != 0
  floatOfBits false (nearestBits root (e - up + down) inexact)

/-- The double nearest to `√(a² + b²)`; an infinite leg outweighs an undefined one. -/
def hypotenuse (a b : Float) : Float :=
  if a.isInf || b.isInf then 1.0 / 0.0
  else if a.isNaN then a
  else if b.isNaN then b
  else if a == 0 then b.abs
  else if b == 0 then a.abs
  else hypotFinite a b

end GateFusion.Binary64
