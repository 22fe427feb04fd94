import GateFusion.Binary64.Rounding

/-!
# Shortest decimals

The decimal with the fewest digits among those that read back as a given double, and of these the
one nearest to it, a tie going up.
-/

namespace GateFusion.Decimal

structure Digits where
  digits : Nat
  exponent : Int

namespace Digits

def text (d : Digits) : List Char :=
  Nat.toDigits 10 d.digits

/-- Where the decimal point stands, counted from before the first digit. -/
def point (d : Digits) : Int :=
  d.text.length + d.exponent

def trim (d : Digits) : Nat → Digits
  | 0 => d
  | fuel + 1 =>
    if d.digits ≠ 0 ∧ d.digits % 10 = 0 then trim ⟨d.digits / 10, d.exponent + 1⟩ fuel else d

end Digits

/-- The interval of numbers that round to the double `m · 2^q`, in quarters of its unit, with the
value itself. Its ends belong to it iff `m` is even. -/
structure Rounded where
  low : Nat
  value : Nat
  high : Nat
  closed : Bool

/-- The interval around `m · 2^q`. Below a power of two the next double is only half as far. -/
def Rounded.around (m : Nat) (q : Int) : Rounded :=
  ⟨if m = Nat.pow 2 52 ∧ -1074 < q then 4 * m - 1 else 4 * m - 2, 4 * m, 4 * m + 2, m % 2 == 0⟩

/-- Whether `c · t` lies in the interval when its quarters count `s` each. -/
def Rounded.holds (r : Rounded) (s t c : Nat) : Bool :=
  if r.closed then r.low * s ≤ c * t && c * t ≤ r.high * s
  else r.low * s < c * t && c * t < r.high * s

/-- Of the two multiples of `10^p` around the value, the nearer one that reads back; of two equally
near ones the upper. -/
def Rounded.onGrid (r : Rounded) (q p : Int) : Option Nat :=
  let s := Nat.pow 2 (q - 2).toNat * Nat.pow 10 (-p).toNat
  let t := Nat.pow 2 (2 - q).toNat * Nat.pow 10 p.toNat
  let below := r.value * s / t
  let downFits := r.holds s t below
  let upFits := r.holds s t (below + 1)
  let upNearer := (2 * below + 1) * t ≤ 2 * (r.value * s)
  if upFits && (upNearer || !downFits) then some (below + 1)
  else if downFits then some below
  else none

def Rounded.search (r : Rounded) (q p : Int) : Nat → Digits
  | 0 => ⟨r.value, q⟩
  | fuel + 1 =>
    match r.onGrid q p with
    | some c => ⟨c, p⟩
    | none => r.search q (p - 1) fuel

/-- The place of the leading decimal digit of `m · 2^q`. -/
def leadingPlace (m : Nat) (q : Int) : Int :=
  let guess := (m.log2 + q) * 30103 / 100000
  let above := Nat.pow 10 (guess + 1).toNat * Nat.pow 2 (-q).toNat
  if above ≤ m * Nat.pow 2 q.toNat * Nat.pow 10 (-(guess + 1)).toNat then guess + 1 else guess

/-- The shortest decimal of `m · 2^q`; seventeen digits always suffice. -/
def shortest (m : Nat) (q : Int) : Digits :=
  if m = 0 then ⟨0, 0⟩
  else ((Rounded.around m q).search q (leadingPlace m q) 18).trim 20

end GateFusion.Decimal
