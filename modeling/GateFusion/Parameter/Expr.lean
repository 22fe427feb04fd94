import GateFusion.OrderedMap
import GateFusion.Parameter.Angle

/-!
# Parameter expressions

The expression tree in which the angle of a gate is given. Before a gate matrix is formed the tree
is lowered to an affine `Angle`, which fails where symbols are multiplied with each other or stand
in a divisor.
-/

namespace GateFusion

inductive Expr (α : Type) where
  | constant (value : α)
  | symbol (name : String)
  | pi
  | neg (e : Expr α)
  | add (a b : Expr α)
  | sub (a b : Expr α)
  | mul (a b : Expr α)
  | div (a b : Expr α)

namespace Expr
variable {α : Type}

def isSymbolic : Expr α → Bool
  | .symbol _ => true
  | .constant _ | .pi => false
  | .neg e => e.isSymbolic
  | .add a b | .sub a b | .mul a b | .div a b => a.isSymbolic || b.isSymbolic

def occurrences : Expr α → List String
  | .symbol name => [name]
  | .constant _ | .pi => []
  | .neg e => e.occurrences
  | .add a b | .sub a b | .mul a b | .div a b => a.occurrences ++ b.occurrences

def symbols (e : Expr α) : NameSet :=
  NameSet.ofList e.occurrences

variable [Scalar α]

/-- The value of an expression without symbols. Division by zero has none. -/
def value? : Expr α → Option α
  | .constant v => some v
  | .symbol _ => none
  | .pi => some Scalar.pi
  | .neg e => e.value?.map fun v => -v
  | .add a b => do return (← a.value?) + (← b.value?)
  | .sub a b => do return (← a.value?) - (← b.value?)
  | .mul a b => do return (← a.value?) * (← b.value?)
  | .div a b => do
    let divisor ← b.value?
    if divisor == 0 then none else return (← a.value?) / divisor

/-- Lower to an affine angle. A product needs a side with a value, a quotient a divisor with a
non-zero value; the error is the product or quotient that has none. -/
def toAngle : Expr α → Except (Expr α) (Angle α)
  | .constant v => .ok (Angle.constant v)
  | .pi => .ok (Angle.constant Scalar.pi)
  | .symbol name => .ok (Angle.symbol name)
  | .neg e => do return (← e.toAngle).scale (-1)
  | .add a b => do return (← a.toAngle).add (← b.toAngle)
  | .sub a b => do return (← a.toAngle).add ((← b.toAngle).scale (-1))
  | .mul a b =>
    match a.value?, b.value? with
    | some factor, _ => do return (← b.toAngle).scale factor
    | none, some factor => do return (← a.toAngle).scale factor
    | none, none => .error (.mul a b)
  | .div a b =>
    match b.value? with
    | some divisor =>
      if divisor == 0 then .error (.div a b) else do return (← a.toAngle).scale (1 / divisor)
    | none => .error (.div a b)

end Expr

def Expr.text : Expr Binary64 → String
  | .constant v => Decimal.plain v
  | .symbol name => name
  | .pi => "π"
  | .neg e => s!"-({e.text})"
  | .add a b => s!"({a.text} + {b.text})"
  | .sub a b => s!"({a.text} - {b.text})"
  | .mul a b => s!"({a.text} * {b.text})"
  | .div a b => s!"({a.text} / {b.text})"

end GateFusion
