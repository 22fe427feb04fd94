import GateFusion.Decimal.Reader
import GateFusion.Text.Radix

/-!
# Plain scalars

What an unquoted scalar can stand for: nothing, a truth value, an integer in one of four radices, or
a floating-point number. Digits after a leading zero are no integer.
-/

namespace GateFusion.Document.Plain

def isNull (s : String) : Bool := ["", "~", "null", "Null", "NULL"].contains s

def isBool (s : String) : Bool :=
  ["true", "True", "TRUE", "false", "False", "FALSE"].contains s

/-- Whether the scalar consists of digits, the first of several being zero, after a sign. -/
def hasLeadingZero (cs : List Char) : Bool :=
  let digits :=
    match cs with
    | '-' :: rest | '+' :: rest => rest
    | rest => rest
  1 < digits.length && digits.head? == some '0' && digits.all Char.isDigit

/-- An unsigned integer without a sign: decimal, or in the radix that its first characters name. -/
def magnitude? : List Char → Option Nat
  | '0' :: 'x' :: rest => Text.natOfDigits? 16 rest
  | '0' :: 'o' :: rest => Text.natOfDigits? 8 rest
  | '0' :: 'b' :: rest => Text.natOfDigits? 2 rest
  | cs => if hasLeadingZero cs then none else Text.natOfDigits? 10 cs

def unsigned? : List Char → Option Nat
  | '+' :: rest => magnitude? rest
  | cs => magnitude? cs

def integer? : List Char → Option Int
  | '-' :: rest => (magnitude? rest).map fun n => -(n : Int)
  | cs => (unsigned? cs).map fun n => (n : Int)

/-- Whether an integer fits `bits` bits, of which one is for the sign if it is negative. -/
def fits (bits : Nat) : Int → Bool
  | .ofNat n => n < Nat.pow 2 bits
  | .negSucc n => n < Nat.pow 2 (bits - 1)

/-- A floating-point number: a decimal in the range of doubles, or a word after a point for an
infinity or an undefined value. -/
def float? (s : String) : Option Binary64 :=
  let (unsigned, doubled) :=
    match s.toList with
    | '+' :: rest => (String.ofList rest, rest.head? == some '+' || rest.head? == some '-')
    | _ => (s, false)
  if doubled then none
  else if [".inf", ".Inf", ".INF"].contains unsigned then some Scalar.infinity
  else if ["-.inf", "-.Inf", "-.INF"].contains s then some (-Scalar.infinity)
  else if [".nan", ".NaN", ".NAN"].contains s then some Scalar.nan
  else
    match Decimal.read unsigned with
    | .ok x => if Scalar.isFinite x then some x else none
    | .error _ => none

end GateFusion.Document.Plain
