import GateFusion.Matrix.Basic

/-!
# Standard gates

The gates with known semantics: their names, the number of qubits they act on, their parameters and
their matrices. Controlled gates take their control qubits first.
-/

namespace GateFusion

/-- A gate of the standard library with its parameters. -/
inductive StandardGate (α : Type) where
  | id | x | y | z | h | s | sdg | t | tdg | sx
  | rx (theta : Expr α)
  | ry (theta : Expr α)
  | rz (theta : Expr α)
  | p (lambda : Expr α)
  | u (theta phi lambda : Expr α)
  | cx | cy | cz | ch | swap
  | crx (theta : Expr α)
  | cry (theta : Expr α)
  | crz (theta : Expr α)
  | cp (lambda : Expr α)
  | rzz (theta : Expr α)
  | ccx | cswap

namespace StandardGate
variable {α : Type}

def name : StandardGate α → String
  | .id => "id" | .x => "x" | .y => "y" | .z => "z" | .h => "h"
  | .s => "s" | .sdg => "sdg" | .t => "t" | .tdg => "tdg" | .sx => "sx"
  | .rx _ => "rx" | .ry _ => "ry" | .rz _ => "rz" | .p _ => "p" | .u _ _ _ => "u"
  | .cx => "cx" | .cy => "cy" | .cz => "cz" | .ch => "ch" | .swap => "swap"
  | .crx _ => "crx" | .cry _ => "cry" | .crz _ => "crz" | .cp _ => "cp" | .rzz _ => "rzz"
  | .ccx => "ccx" | .cswap => "cswap"

/-- The gate with a name, in any case, and exactly the parameters it takes. -/
def ofName? (name : String) (params : List (Expr α)) : Option (StandardGate α) :=
  match name.toLower, params with
  | "id", [] | "i", [] => some .id
  | "x", [] => some .x
  | "y", [] => some .y
  | "z", [] => some .z
  | "h", [] => some .h
  | "s", [] => some .s
  | "sdg", [] => some .sdg
  | "t", [] => some .t
  | "tdg", [] => some .tdg
  | "sx", [] => some .sx
  | "rx", [a] => some (.rx a)
  | "ry", [a] => some (.ry a)
  | "rz", [a] => some (.rz a)
  | "p", [a] | "phase", [a] => some (.p a)
  | "u", [a, b, c] | "u3", [a, b, c] => some (.u a b c)
  | "cx", [] | "cnot", [] => some .cx
  | "cy", [] => some .cy
  | "cz", [] => some .cz
  | "ch", [] => some .ch
  | "swap", [] => some .swap
  | "crx", [a] => some (.crx a)
  | "cry", [a] => some (.cry a)
  | "crz", [a] => some (.crz a)
  | "cp", [a] | "cphase", [a] => some (.cp a)
  | "rzz", [a] => some (.rzz a)
  | "ccx", [] | "toffoli", [] => some .ccx
  | "cswap", [] | "fredkin", [] => some .cswap
  | _, _ => none

def numQubits : StandardGate α → Nat
  | .id | .x | .y | .z | .h | .s | .sdg | .t | .tdg | .sx
  | .rx _ | .ry _ | .rz _ | .p _ | .u _ _ _ => 1
  | .cx | .cy | .cz | .ch | .swap
  | .crx _ | .cry _ | .crz _ | .cp _ | .rzz _ => 2
  | .ccx | .cswap => 3

def parameters : StandardGate α → List (Expr α)
  | .rx a | .ry a | .rz a | .p a | .crx a | .cry a | .crz a | .cp a | .rzz a => [a]
  | .u a b c => [a, b, c]
  | _ => []

def isParameterized (g : StandardGate α) : Bool :=
  g.parameters.any Expr.isSymbolic

end StandardGate

/-- The four entries of a one-qubit matrix. -/
structure Quad (α : Type) where
  e00 : Entry α
  e01 : Entry α
  e10 : Entry α
  e11 : Entry α

namespace Quad
variable {α : Type} [Scalar α]

def entry (m : Quad α) (row col : Nat) : Entry α :=
  if row = 0 then (if col = 0 then m.e00 else m.e01)
  else if col = 0 then m.e10 else m.e11

def single (m : Quad α) : GateMatrix α :=
  GateMatrix.ofFn 1 m.entry

/-- The matrix on two qubits that acts on the second where the first is set. -/
def controlled (m : Quad α) : GateMatrix α :=
  GateMatrix.ofFn 2 fun row col =>
    if row % 2 = 1 ∧ col % 2 = 1 then m.entry (row / 2) (col / 2)
    else if row = col then 1 else 0

def numeric (a b c d : Cartesian α) : Quad α :=
  ⟨.numeric a, .numeric b, .numeric c, .numeric d⟩

def diagonal (a d : Cartesian α) : Quad α :=
  numeric a 0 0 d

def pauliX : Quad α := numeric (.real 0) (.real 1) (.real 1) (.real 0)

def pauliY : Quad α := numeric (.imag 0) (.imag (-1)) (.imag 1) (.imag 0)

def pauliZ : Quad α := numeric (.real 1) (.real 0) (.real 0) (.real (-1))

def hadamard : Quad α :=
  let r : α := Scalar.invSqrtTwo
  numeric (.real (1 * r)) (.real (1 * r)) (.real (1 * r)) (.real (-1 * r))

def sqrtX : Quad α := numeric ⟨0.5, 0.5⟩ ⟨0.5, -0.5⟩ ⟨0.5, -0.5⟩ ⟨0.5, 0.5⟩

def cosEntry (a : Angle α) (factor : Cartesian α) : Entry α :=
  .ofPolynomial ((Polynomial.cos a).scale factor)

def sinEntry (a : Angle α) (factor : Cartesian α) : Entry α :=
  .ofPolynomial ((Polynomial.sin a).scale factor)

def expiEntry (a : Angle α) : Entry α :=
  .ofPolynomial (Polynomial.expi a)

def rotateX (theta : Angle α) : Quad α :=
  let half := theta.scale 0.5
  ⟨cosEntry half (.real 1), sinEntry half (.imag (-1)),
    sinEntry half (.imag (-1)), cosEntry half (.real 1)⟩

def rotateY (theta : Angle α) : Quad α :=
  let half := theta.scale 0.5
  ⟨cosEntry half (.real 1), sinEntry half (.real (-1)),
    sinEntry half (.real 1), cosEntry half (.real 1)⟩

def rotateZ (theta : Angle α) : Quad α :=
  let half := theta.scale 0.5
  ⟨expiEntry (half.scale (-1)), 0, 0, expiEntry half⟩

def phase (lambda : Angle α) : Quad α :=
  ⟨1, 0, 0, expiEntry lambda⟩

def universal (theta phi lambda : Angle α) : Quad α :=
  let half := theta.scale 0.5
  let c := Polynomial.cos half
  let s := Polynomial.sin half
  ⟨.ofPolynomial c,
    .ofPolynomial (((Polynomial.expi lambda).mul s).scale (.real (-1))),
    .ofPolynomial ((Polynomial.expi phi).mul s),
    .ofPolynomial ((Polynomial.expi (phi.add lambda)).mul c)⟩

end Quad

namespace StandardGate
variable {α : Type} [Scalar α]

def swapBits (index a b : Nat) : Nat :=
  if index.testBit a = index.testBit b then index else index ^^^ (Nat.pow 2 a ||| Nat.pow 2 b)

def permutation (k : Nat) (f : Nat → Nat) : GateMatrix α :=
  GateMatrix.ofFn k fun row col => if row = f col then 1 else 0

/-- Lower a parameter; where that fails the expression is not affine. -/
def angle (e : Expr α) : Except (CircuitError α) (Angle α) :=
  e.toAngle.mapError .nonAffine

/-- The diagonal matrix of the two-qubit Z rotation: one phase where the qubits agree, the opposite
one where they differ. -/
def rotateZZ (theta : Angle α) : GateMatrix α :=
  let half := theta.scale 0.5
  let even := Quad.expiEntry (half.scale (-1))
  let odd := Quad.expiEntry half
  GateMatrix.ofFn 2 fun row col =>
    if row ≠ col then 0 else if row = 0 ∨ row = 3 then even else odd

/-- The matrix of the gate in little-endian qubit order. Constant parameters give numeric entries,
symbolic ones have to be affine. -/
def matrix : StandardGate α → Except (CircuitError α) (GateMatrix α)
  | .id => .ok (Quad.numeric (.real 1) (.real 0) (.real 0) (.real 1)).single
  | .x => .ok Quad.pauliX.single
  | .y => .ok Quad.pauliY.single
  | .z => .ok Quad.pauliZ.single
  | .h => .ok Quad.hadamard.single
  | .s => .ok (Quad.diagonal (.real 1) (.imag 1)).single
  | .sdg => .ok (Quad.diagonal (.real 1) (.imag (-1))).single
  | .t => .ok (Quad.diagonal (.real 1) (.polar 1 (Scalar.pi / ((4 : Nat) : α)))).single
  | .tdg => .ok (Quad.diagonal (.real 1) (.polar 1 (-(Scalar.pi / ((4 : Nat) : α))))).single
  | .sx => .ok Quad.sqrtX.single
  | .rx a => do return (Quad.rotateX (← angle a)).single
  | .ry a => do return (Quad.rotateY (← angle a)).single
  | .rz a => do return (Quad.rotateZ (← angle a)).single
  | .p a => do return (Quad.phase (← angle a)).single
  | .u a b c => do return (Quad.universal (← angle a) (← angle b) (← angle c)).single
  | .cx => .ok Quad.pauliX.controlled
  | .cy => .ok Quad.pauliY.controlled
  | .cz => .ok Quad.pauliZ.controlled
  | .ch => .ok Quad.hadamard.controlled
  | .swap => .ok (permutation 2 fun i => swapBits i 0 1)
  | .crx a => do return (Quad.rotateX (← angle a)).controlled
  | .cry a => do return (Quad.rotateY (← angle a)).controlled
  | .crz a => do return (Quad.rotateZ (← angle a)).controlled
  | .cp a => do return (Quad.phase (← angle a)).controlled
  | .rzz a => do return rotateZZ (← angle a)
  | .ccx => .ok (permutation 3 fun i => if i &&& 3 = 3 then i ^^^ 4 else i)
  | .cswap => .ok (permutation 3 fun i => if i % 2 = 1 then swapBits i 1 2 else i)

end StandardGate
end GateFusion
