import GateFusion.Cartesian
import GateFusion.Parameter.Angle

/-!
# Trigonometric polynomials

Sums of monomials `c · Π atomᵢ^eᵢ` with a complex coefficient and atoms `cos a`, `sin a` and
`exp (i·a)` over affine angles: the shape of the entries of rotation matrices and their products.
Like monomials are merged, exponentials are folded into one, atoms without symbols are folded into
the coefficient, and a monomial is dropped only when its coefficient is exactly zero.
-/

namespace GateFusion

inductive Atom (α : Type) where
  | cos (a : Angle α)
  | sin (a : Angle α)
  | expi (a : Angle α)

namespace Atom
variable {α : Type}

def angle : Atom α → Angle α
  | .cos a | .sin a | .expi a => a

def kind : Atom α → Nat
  | .cos _ => 0
  | .sin _ => 1
  | .expi _ => 2

variable [Scalar α]

def valueAt (atom : Atom α) (x : α) : Cartesian α :=
  match atom with
  | .cos _ => Cartesian.real (Scalar.cos x)
  | .sin _ => Cartesian.real (Scalar.sin x)
  | .expi _ => Cartesian.polar 1 x

def cmp (a b : Atom α) : Ordering :=
  (compare a.kind b.kind).then (a.angle.cmp b.angle)

end Atom

/-- A product of atoms with their exponents, which are 32-bit words; the empty product is one. -/
abbrev Factors (α : Type) := OrderedMap (Atom α) UInt32

namespace Factors
variable {α : Type} [Scalar α]

def cmp (f g : Factors α) : Ordering :=
  OrderedMap.compareBy Atom.cmp compare f g

/-- The product of two products: exponents add up. Nothing checks the sum: where it does not fit a
word, it wraps around. -/
def mul (f g : Factors α) : Factors α :=
  g.foldl (fun acc t => OrderedMap.upsert Atom.cmp t.1 (fun e => e.getD 0 + t.2) acc) f

/-- What is left of a product after folding: the product of the remaining atoms, the angle of the
exponentials if there were any, and the coefficient with the values of constant atoms. -/
structure Folding (α : Type) where
  rest : Factors α
  phase : Option (Angle α)
  coefficient : Cartesian α

def Folding.step (s : Folding α) (t : Atom α × UInt32) : Folding α :=
  match t.1 with
  | .expi a =>
    let scaled := a.scale (t.2.toNat : α)
    { s with phase := some (match s.phase with
        | some acc => acc.add scaled
        | none => scaled) }
  | atom =>
    if atom.angle.isConstant then
      { s with coefficient :=
          s.coefficient * (atom.valueAt atom.angle.constantPart).pow t.2.toNat }
    else { s with rest := OrderedMap.insert Atom.cmp atom t.2 s.rest }

/-- Fold constant atoms into the coefficient and all exponentials into one, which goes into the
coefficient as well when its symbols cancel. -/
def normalize (factors : Factors α) (coefficient : Cartesian α) : Factors α × Cartesian α :=
  let s := factors.foldl Folding.step ⟨[], none, coefficient⟩
  match s.phase with
  | none => (s.rest, s.coefficient)
  | some a =>
    if a.isConstant then (s.rest, s.coefficient * Cartesian.polar 1 a.constantPart)
    else (OrderedMap.insert Atom.cmp (.expi a) 1 s.rest, s.coefficient)

/-- The value under an assignment times `c`, unless a symbol has none. -/
def evaluate (factors : Factors α) (c : Cartesian α) (lookup : String → Option α) :
    Option (Cartesian α) :=
  factors.foldlM (fun acc t =>
    (t.1.angle.evaluate lookup).map fun x => acc * (t.1.valueAt x).pow t.2.toNat) c

end Factors

/-- A sum of monomials, ordered by their products of atoms. -/
structure Polynomial (α : Type) where
  terms : OrderedMap (Factors α) (Cartesian α)

namespace Polynomial
variable {α : Type}

def zero : Polynomial α := ⟨[]⟩

def isZero (p : Polynomial α) : Bool := p.terms.isEmpty

variable [Scalar α]

/-- Add a monomial. A coefficient that becomes zero is dropped. -/
def accumulate (p : Polynomial α) (factors : Factors α) (c : Cartesian α) : Polynomial α :=
  if c == 0 then p
  else
    let terms := OrderedMap.upsert Factors.cmp factors (fun old => old.getD 0 + c) p.terms
    match OrderedMap.get? Factors.cmp factors terms with
    | some s => if s == 0 then ⟨terms.filter fun t => !(t.2 == 0)⟩ else ⟨terms⟩
    | none => ⟨terms⟩

def constant (c : Cartesian α) : Polynomial α :=
  zero.accumulate [] c

def ofAtom (atom : Atom α) : Polynomial α :=
  let (factors, c) := Factors.normalize [(atom, 1)] 1
  zero.accumulate factors c

def cos (a : Angle α) : Polynomial α := ofAtom (.cos a)

def sin (a : Angle α) : Polynomial α := ofAtom (.sin a)

def expi (a : Angle α) : Polynomial α := ofAtom (.expi a)

def asConstant? (p : Polynomial α) : Option (Cartesian α) :=
  match p.terms with
  | [] => some 0
  | [(factors, c)] => if factors.isEmpty then some c else none
  | _ => none

def add (p q : Polynomial α) : Polynomial α :=
  q.terms.foldl (fun acc t => acc.accumulate t.1 t.2) p

def mul (p q : Polynomial α) : Polynomial α :=
  p.terms.foldl (fun acc s => q.terms.foldl (fun acc t =>
    let (factors, c) := Factors.normalize (s.1.mul t.1) (s.2 * t.2)
    acc.accumulate factors c) acc) zero

def scale (p : Polynomial α) (factor : Cartesian α) : Polynomial α :=
  p.terms.foldl (fun acc t => acc.accumulate t.1 (t.2 * factor)) zero

/-- The value under an assignment, unless a symbol has none. -/
def evaluate (p : Polynomial α) (lookup : String → Option α) : Option (Cartesian α) :=
  p.terms.foldlM (fun acc t => (Factors.evaluate t.1 t.2 lookup).map fun v => acc + v) 0

def symbols (p : Polynomial α) : NameSet :=
  NameSet.ofList (p.terms.flatMap fun t => t.1.flatMap fun f => f.1.angle.symbols)

def beq (p q : Polynomial α) : Bool :=
  p.terms.length == q.terms.length &&
    (p.terms.zip q.terms).all fun (s, t) => Factors.cmp s.1 t.1 == .eq && s.2 == t.2

instance : BEq (Polynomial α) := ⟨beq⟩

end Polynomial

/-- Real part, sign, imaginary part and `i`. Only a part below zero counts as negative. -/
def Cartesian.text (z : Cartesian Binary64) : String :=
  if z.im < 0 then s!"{Decimal.plain z.re}-{Decimal.plain (-z.im)}i"
  else s!"{Decimal.plain z.re}+{Decimal.plain z.im}i"

def Atom.text : Atom Binary64 → String
  | .cos a => s!"cos({a.text})"
  | .sin a => s!"sin({a.text})"
  | .expi a => s!"exp(i*({a.text}))"

/-- The monomials, each with its coefficient in parentheses; exponents of one are left out. -/
def Polynomial.text (p : Polynomial Binary64) : String :=
  if p.isZero then "0"
  else " + ".intercalate (p.terms.map fun t =>
    s!"({t.2.text})" ++ String.join (t.1.map fun f =>
      if f.2 = 1 then s!"*{f.1.text}" else s!"*{f.1.text}^{f.2}"))

end GateFusion
