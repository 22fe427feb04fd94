import GateFusion.Parameter.Polynomial

/-!
# Matrix entries

An entry is a number or a polynomial in runtime parameters. Polynomials without symbols collapse to
numbers.
-/

namespace GateFusion

/-- A number, or an expression over runtime parameters. -/
inductive Entry (α : Type) where
  | numeric (c : Cartesian α)
  | symbolic (p : Polynomial α)

namespace Entry
variable {α : Type} [Scalar α]

instance : Zero (Entry α) := ⟨.numeric 0⟩
instance : One (Entry α) := ⟨.numeric 1⟩

/-- The entry of a polynomial: a number if it has no atoms. -/
def ofPolynomial (p : Polynomial α) : Entry α :=
  match p.asConstant? with
  | some c => .numeric c
  | none => .symbolic p

/-- Whether the entry is exactly zero. No tolerance is applied. -/
def isZero : Entry α → Bool
  | .numeric c => c == 0
  | .symbolic p => p.isZero

def isSymbolic : Entry α → Bool
  | .numeric _ => false
  | .symbolic _ => true

def mul : Entry α → Entry α → Entry α
  | .numeric a, .numeric b => .numeric (a * b)
  | .numeric a, .symbolic p => ofPolynomial (p.scale a)
  | .symbolic p, .numeric a => ofPolynomial (p.scale a)
  | .symbolic p, .symbolic q => ofPolynomial (p.mul q)

def add : Entry α → Entry α → Entry α
  | .numeric a, .numeric b => .numeric (a + b)
  | .numeric a, .symbolic p => ofPolynomial (p.add (Polynomial.constant a))
  | .symbolic p, .numeric a => ofPolynomial (p.add (Polynomial.constant a))
  | .symbolic p, .symbolic q => ofPolynomial (p.add q)

def evaluate (e : Entry α) (lookup : String → Option α) : Option (Cartesian α) :=
  match e with
  | .numeric c => some c
  | .symbolic p => p.evaluate lookup

/-- The value put in for every parameter when a magnitude is estimated. It is away from the
rational multiples of π, where the sines and cosines of usual gates vanish. -/
def representative : α := 0.5772156649015329

def magnitude : Entry α → α
  | .numeric c => c.norm
  | .symbolic p =>
    match p.evaluate fun _ => some representative with
    | some c => c.norm
    | none => Scalar.infinity

def symbols : Entry α → NameSet
  | .numeric _ => []
  | .symbolic p => p.symbols

instance : BEq (Entry α) where
  beq
    | .numeric a, .numeric b => a == b
    | .symbolic p, .symbolic q => p == q
    | _, _ => false

end Entry
end GateFusion
