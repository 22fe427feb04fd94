import GateFusion.Circuit.Builder
import GateFusion.Document.Fields
import GateFusion.Document.Format
import GateFusion.Text.Blank

/-!
# Circuits as documents

A circuit document gives the size of the register and the gates in program order. A gate is named
and lists its qubits and parameters; a gate called `unitary` gives its matrix instead. A parameter
is a number or a text for a symbol or for π, with an optional minus sign.
-/

namespace GateFusion

/-- The parameter that a text stands for: π in either case, or else a symbol; a minus sign may
stand in front. -/
def Expr.ofText {α : Type} (s : String) : Expr α :=
  let cs := Text.trimChars s.toList
  let (negative, name) :=
    match cs with
    | '-' :: rest => (true, Text.trimChars rest)
    | cs => (false, cs)
  let e := if name.map Char.toLower = ['p', 'i'] then .pi else .symbol (String.ofList name)
  if negative then .neg e else e

namespace Document

/-- The parameter of a number or a text. An integer has to fit 64 bits, unless it is too large for
128: it is a floating-point number then. -/
def parameter? : Node → Option (Expr Binary64)
  | .text s => some (.ofText s)
  | .plain s =>
    let cs := s.toList
    let uncounted :=
      match if Plain.hasLeadingZero cs then none else Plain.float? s with
      | some x => .constant x
      | none => .ofText s
    if Plain.isNull s || Plain.isBool s then none
    else
      match Plain.integer? cs with
      | some n =>
        if Plain.fits 64 n then some (.constant (.ofInt n))
        else if Plain.fits 128 n then none
        else some uncounted
      | none => some uncounted
  | n => n.number?.map .constant

def complex? : Node → Option (Cartesian Binary64)
  | .seq [re, im] => do return ⟨← re.number?, ← im.number?⟩
  | _ => none

structure GateDocument where
  name : String
  qubits : List Qubit
  params : List (Expr Binary64)
  matrix : Option (List (Cartesian Binary64))

def GateDocument.ofNode? (positional : Bool) (n : Node) : Option GateDocument :=
  match n.fields? positional true ["name", "qubits", "params", "matrix"] with
  | some [some name, some qubits, params, matrix] => do
    return {
      name := ← name.string?
      qubits := ← qubits.list? (Node.nat? (Nat.pow 2 32))
      params := ← Node.orDefault (Node.list? parameter?) [] params
      matrix := ← Node.orDefault (Node.nullable? (Node.list? complex?)) none matrix }
  | _ => none

/-- A circuit as it is written down. -/
structure CircuitDocument where
  name : Option String
  numQubits : Nat
  gates : List GateDocument

def CircuitDocument.ofNode? (positional : Bool) (n : Node) : Option CircuitDocument :=
  match n.fields? positional true ["name", "num_qubits", "gates"] with
  | some [name, some numQubits, some gates] => do
    return {
      name := ← Node.orDefault (Node.nullable? Node.string?) none name
      numQubits := ← numQubits.nat? (Nat.pow 2 32)
      gates := ← gates.list? (GateDocument.ofNode? positional) }
  | _ => none

/-- Why a gate of a document is no gate. -/
inductive GateFault where
  | missingMatrix
  | refused (e : CircuitError Binary64)

def GateFault.message : GateFault → String
  | .missingMatrix => "A 'unitary' gate needs a 'matrix' field"
  | .refused e => e.message

/-- Why a text describes no circuit. Gates are counted from zero. -/
inductive CircuitDocumentError where
  | malformed (format : Format)
  | register (e : CircuitError Binary64)
  | unknownGate (name : String) (numParams : Nat)
  | invalidGate (index : Nat) (name : String) (fault : GateFault)
  | misplacedGate (index : Nat) (name : String) (e : CircuitError Binary64)

def CircuitDocumentError.message : CircuitDocumentError → String
  | .malformed format => s!"Invalid {format.name}"
  | .register e => e.message
  | .unknownGate name n => s!"Unknown gate '{name}' with {n} parameters"
  | .invalidGate i name fault => s!"Invalid gate #{i} ('{name}'): {fault.message}"
  | .misplacedGate i name e => s!"Cannot add gate #{i} ('{name}'): {e.message}"

namespace GateDocument

def unitary (g : GateDocument) : Except GateFault (Gate Binary64) :=
  match g.matrix with
  | none => .error .missingMatrix
  | some entries => (do
      let matrix ← GateMatrix.ofEntries g.qubits.length (entries.map Entry.numeric).toArray
      Gate.ofMatrix "unitary" g.qubits matrix).mapError .refused

/-- The gate of a document at its place among all gates. -/
def gate (g : GateDocument) (index : Nat) : Except CircuitDocumentError (Gate Binary64) :=
  if g.name.toLower = "unitary" then g.unitary.mapError (.invalidGate index g.name)
  else
    match StandardGate.ofName? g.name g.params with
    | none => .error (.unknownGate g.name g.params.length)
    | some standard =>
      (Gate.standard standard g.qubits).mapError fun e => .invalidGate index g.name (.refused e)

def addTo (c : Circuit Binary64) (g : GateDocument × Nat) :
    Except CircuitDocumentError (Circuit Binary64) := do
  let gate ← g.1.gate g.2
  (c.add gate).mapError (.misplacedGate g.2 g.1.name)

end GateDocument

/-- The circuit of a document; `defaultName` is for documents without a name. -/
def CircuitDocument.circuit (d : CircuitDocument) (defaultName : String) :
    Except CircuitDocumentError (Circuit Binary64) := do
  let start ← (Circuit.empty (d.name.getD defaultName) d.numQubits).mapError .register
  d.gates.zipIdx.foldlM GateDocument.addTo start

def readCircuit (source : String) (format : Format) (defaultName : String) :
    Except CircuitDocumentError (Circuit Binary64) :=
  match (format.read? source).bind (CircuitDocument.ofNode? format.isPositional) with
  | some d => d.circuit defaultName
  | none => .error (.malformed format)

end Document
end GateFusion
