import GateFusion.Binary64.Basic
import GateFusion.Decimal.Shortest

/-!
# Decimal texts

The ways in which a double is written: positional with as many digits as needed, scientific, with
a fixed number of places, and as a literal that is always recognisable as a fraction.
-/

namespace GateFusion.Decimal

def zeros (n : Nat) : List Char := List.replicate n '0'

/-- Positional digits without exponent, and without a point where there is no fraction. -/
def positional (d : Digits) : List Char :=
  let ds := d.text
  let point := d.point
  if point ≤ 0 then '0' :: '.' :: zeros (-point).toNat ++ ds
  else if ds.length ≤ point then ds ++ zeros (point.toNat - ds.length)
  else ds.take point.toNat ++ '.' :: ds.drop point.toNat

/-- One digit, the others behind a point, and the power of ten after `mark`. -/
def withExponent (mark : Int → String) (d : Digits) : List Char :=
  let power := d.point - 1
  let fraction := d.text.drop 1
  d.text.take 1 ++ (if fraction.isEmpty then [] else '.' :: fraction) ++ (mark power).toList

/-- Write a double: the sign of a negative zero shows, and undefined values have none. -/
def write (finite : Binary64.Parts → List Char) : Binary64 → String
  | .nan _ => "NaN"
  | .number x =>
    if x.isInf then (if x < 0 then "-inf" else "inf")
    else
      let p := Binary64.parts x
      String.ofList ((if p.negative then ['-'] else []) ++ finite p)

/-- Shortest positional text, such as `1`, `-0.5` or `0.0000001`. -/
def plain : Binary64 → String :=
  write fun p =>
    if p.mantissa = 0 then ['0'] else positional (shortest p.mantissa p.exponent)

/-- Shortest scientific text, such as `1e-8`, `1.6384e4` or `0e0`. -/
def scientific : Binary64 → String :=
  write fun p =>
    if p.mantissa = 0 then "0e0".toList
    else withExponent (fun k => s!"e{k}") (shortest p.mantissa p.exponent)

/-- Shortest text with a point or an exponent: positional from `10⁻⁵` up to below `10¹⁶`. -/
def literal : Binary64 → String :=
  write fun p =>
    if p.mantissa = 0 then "0.0".toList
    else
      let d := shortest p.mantissa p.exponent
      if -5 < d.point ∧ d.point ≤ 16 then
        positional d ++ (if d.exponent < 0 then [] else ".0".toList)
      else withExponent (fun k => if k < 0 then s!"e{k}" else s!"e+{k}") d

/-- The quotient rounded to the nearest whole number, a half to the even one. -/
def roundDiv (num den : Nat) : Nat :=
  let q := num / den
  let rest := 2 * (num % den)
  if den < rest ∨ (rest = den ∧ q % 2 = 1) then q + 1 else q

/-- Text with exactly `places` digits after the point, for `places > 0`. -/
def fixed (places : Nat) : Binary64 → String :=
  write fun p =>
    let scaled := p.mantissa * Nat.pow 2 p.exponent.toNat * Nat.pow 10 places
    let n := roundDiv scaled (Nat.pow 2 (-p.exponent).toNat)
    let fraction := Nat.toDigits 10 (n % Nat.pow 10 places)
    Nat.toDigits 10 (n / Nat.pow 10 places) ++ '.' :: zeros (places - fraction.length) ++ fraction

def padLeft (width : Nat) (s : String) : String :=
  String.ofList (List.replicate (width - s.length) ' ') ++ s

def padRight (width : Nat) (s : String) : String :=
  s ++ String.ofList (List.replicate (width - s.length) ' ')

end GateFusion.Decimal
