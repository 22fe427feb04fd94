import GateFusion.Binary64.Hypotenuse
import GateFusion.Scalar

/-!
# Double-precision numbers

The numbers the program runs on. `Float` knows a single undefined value; the total order tells a
negative one from a positive one, so its sign is kept beside it.
-/

namespace GateFusion

/-- A double, or an undefined value with its sign. -/
inductive Binary64 where
  | number (x : Float)
  | nan (negative : Bool)

namespace Binary64

/-- The outcome of an operation on numbers; where none is defined the value is negative. -/
def ofFloat (x : Float) : Binary64 :=
  if x.isNaN then .nan true else .number x

def toFloat : Binary64 → Float
  | .number x => x
  | .nan _ => 0.0 / 0.0

def map (f : Float → Float) : Binary64 → Binary64
  | .number x => ofFloat (f x)
  | .nan s => .nan s

/-- An operation on two numbers; the first undefined operand passes through. -/
def map₂ (f : Float → Float → Float) : Binary64 → Binary64 → Binary64
  | .number x, .number y => ofFloat (f x y)
  | .nan s, _ => .nan s
  | .number _, .nan s => .nan s

def test (r : Float → Float → Bool) : Binary64 → Binary64 → Bool
  | .number x, .number y => r x y
  | _, _ => false

/-- Places of the total order: negative values descend from `-1`, positive ones ascend from `0`,
and undefined values lie beyond the infinities. -/
def place : Binary64 → Int
  | .nan negative => if negative then -(Nat.pow 2 63 : Int) else (Nat.pow 2 63 : Int)
  | .number x =>
    let bits := x.toBits.toNat
    if Nat.pow 2 63 ≤ bits then (Nat.pow 2 63 : Int) - bits - 1 else bits

/-- The double nearest to `± digits · 10^exponent`. Beyond 400 places it is infinite or zero. -/
def ofDecimal (negative : Bool) (digits : Nat) (exponent : Int) : Binary64 :=
  let lead := (digits.log2 * 30103 / 100000 : Nat) + exponent
  let bits :=
    if digits = 0 ∨ lead < -400 then 0
    else if 400 < lead then infinityBits
    else if 0 ≤ exponent then nearestBits (digits * Nat.pow 10 exponent.toNat) 0 false
    else nearestBitsRatio digits (Nat.pow 10 (-exponent).toNat)
  .number (floatOfBits negative bits)

def ofNat (n : Nat) : Binary64 :=
  .number (floatOfBits false (nearestBits n 0 false))

def ofInt (n : Int) : Binary64 :=
  .number (floatOfBits (n < 0) (nearestBits n.natAbs 0 false))

/-- Length over two legs; an infinite leg outweighs an undefined one. -/
def hypot : Binary64 → Binary64 → Binary64
  | .number x, .number y => ofFloat (hypotenuse x y)
  | .nan s, .number y => if y.isInf then .number (1.0 / 0.0) else .nan s
  | .number x, .nan s => if x.isInf then .number (1.0 / 0.0) else .nan s
  | .nan s, .nan _ => .nan s

/-- The negation, which also turns the sign of an undefined value. -/
def neg : Binary64 → Binary64
  | .number x => .number (-x)
  | .nan s => .nan (!s)

instance : Scalar Binary64 where
  zero := .number 0.0
  one := .number 1.0
  add := map₂ (· + ·)
  sub := map₂ (· - ·)
  mul := map₂ (· * ·)
  div := map₂ (· / ·)
  neg := neg
  natCast := ofNat
  ofScientific m negExponent e := ofDecimal false m (if negExponent then -(e : Int) else e)
  beq := test (· == ·)
  lt a b := test (fun x y => decide (x < y)) a b = true
  le a b := test (fun x y => decide (x ≤ y)) a b = true
  decidableLT _ _ := inferInstanceAs (Decidable (_ = true))
  decidableLE _ _ := inferInstanceAs (Decidable (_ = true))
  totalCmp a b := compare a.place b.place
  sqrt := map Float.sqrt
  cos := map Float.cos
  sin := map Float.sin
  hypot := hypot
  pi := .number 3.141592653589793
  infinity := .number (1.0 / 0.0)
  nan := .nan false

end Binary64
end GateFusion
