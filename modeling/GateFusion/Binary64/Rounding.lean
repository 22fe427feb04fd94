/-!
# Rounding to double precision

A non-negative double is `m · 2^e` with `m < 2^53` and `e ≥ -1074`. Rounding picks the nearest such
number, and of two equally near ones the one with even `m`.
-/

namespace GateFusion.Binary64

/-- The bit pattern of positive infinity, which is also the first pattern that is no finite
number. -/
def infinityBits : Nat := 2047 * Nat.pow 2 52

/-- The bit pattern of the double nearest to `m · 2^e`. With `inexact` the number meant lies
strictly between `m` and `m + 1` times `2^e`; `m` then has at least 55 bits. -/
def nearestBits (m : Nat) (e : Int) (inexact : Bool) : Nat :=
  if m = 0 then 0
  else
    -- The exponent of the last bit kept.
    let unit := max (e + m.log2 - 52) (-1074)
    let kept :=
      if unit ≤ e then m * Nat.pow 2 (e - unit).toNat
      else
        let step := Nat.pow 2 (unit - e).toNat
        let q := m / step
        let rest := 2 * (m % step)
        if step < rest ∨ (rest = step ∧ (inexact ∨ q % 2 = 1)) then q + 1 else q
    -- Adding `kept` with its leading bit counts the exponent up by one, and a carry once more.
    min ((unit + 1074).toNat * Nat.pow 2 52 + kept) infinityBits

/-- The bit pattern of the double nearest to `num / den`. -/
def nearestBitsRatio (num den : Nat) : Nat :=
  let shift := 66 + den.log2 - num.log2
  let scaled := num * Nat.pow 2 shift
  nearestBits (scaled / den) (-shift) (scaled % den != 0)

def floatOfBits (negative : Bool) (bits : Nat) : Float :=
  let x := Float.ofBits (UInt64.ofNat bits)
  if negative then -x else x

/-- Sign, mantissa `m` and exponent `e` of a finite double `± m · 2^e`. -/
structure Parts where
  negative : Bool
  mantissa : Nat
  exponent : Int

def parts (x : Float) : Parts :=
  let bits := x.toBits.toNat
  let biased : Nat := bits / Nat.pow 2 52 % 2048
  let fraction : Nat := bits % Nat.pow 2 52
  let negative := Nat.pow 2 63 ≤ bits
  if biased = 0 then ⟨negative, fraction, -1074⟩
  else ⟨negative, fraction + Nat.pow 2 52, biased - 1075⟩

end GateFusion.Binary64
