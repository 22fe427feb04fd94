/-!
# Scalars

The arithmetic in which angles, matrix entries, amplitudes and costs are computed. Every algorithm
of the library is written once over this class: `Binary64` runs it, and a statement about exact
numbers reads the same definitions over the real numbers. The class carries no laws.
-/

namespace GateFusion

/-- Number operations with a comparison that may be partial (`==`, `<`, `≤`) and one that is total
(`totalCmp`). -/
class Scalar (α : Type) extends Zero α, One α, Add α, Sub α, Mul α, Div α, Neg α, NatCast α,
    OfScientific α, BEq α, LT α, LE α where
  decidableLT : DecidableLT α
  decidableLE : DecidableLE α
  totalCmp : α → α → Ordering
  sqrt : α → α
  cos : α → α
  sin : α → α
  /-- Length of the hypotenuse over two legs. -/
  hypot : α → α → α
  pi : α
  /-- Above every finite number. -/
  infinity : α
  /-- The result of an undefined operation. -/
  nan : α

namespace Scalar
variable {α : Type} [Scalar α]

instance : DecidableLT α := decidableLT
instance : DecidableLE α := decidableLE

/-- Sum from left to right. The sum of nothing is the negated zero, which no summand changes. -/
def sum (xs : List α) : α :=
  xs.foldl (· + ·) (-0)

def twoPow (k : Nat) : α :=
  if k = 0 then 1
  else
    let root := twoPow (k / 2)
    if k % 2 = 0 then root * root else root * root * ((2 : Nat) : α)
termination_by k

/-- The larger operand. An operand that differs from itself gives way to the other. -/
def larger (a b : α) : α :=
  if a == a then (if a < b then b else a) else b

/-- Whether subtracting a number from itself leaves zero, which infinities and undefined results
do not. -/
def isFinite (x : α) : Bool :=
  x - x == 0

def invSqrtTwo : α :=
  sqrt 0.5

/-- A number in `[0, 1)` from the upper 53 bits of a random word. -/
def ofRandomWord (w : UInt64) : α :=
  ((w >>> 11).toNat : α) / twoPow 53

end Scalar
end GateFusion
