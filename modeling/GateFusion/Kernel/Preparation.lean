import GateFusion.CompileError
import GateFusion.Parameter.Polynomial

/-!
# Parameter preparation

Symbolic matrix entries are slots of a flat buffer that is filled from the parameter values before
the kernels run: slot `s` has its real part at place `2s` and its imaginary part behind it. Values
are given in the ascending order of the parameter names.
-/

namespace GateFusion

/-- One symbolic entry of a kernel, by its row and column, and its expression. -/
structure ParameterSlot (α : Type) where
  kernel : Nat
  row : Nat
  col : Nat
  expr : Polynomial α

/-- The parameters in value order and the slots in buffer order. -/
structure Preparation (α : Type) where
  parameters : NameSet
  slots : List (ParameterSlot α)

namespace Preparation
variable {α : Type}

/-- A preparation over the distinct parameters of a list, in ascending order. -/
def ofParameters (parameters : List String) (slots : List (ParameterSlot α)) : Preparation α :=
  ⟨NameSet.ofList parameters, slots⟩

def numSlots (p : Preparation α) : Nat := p.slots.length

def bufferLen (p : Preparation α) : Nat := 2 * p.numSlots

def position? (p : Preparation α) (name : String) : Option Nat := p.parameters.idxOf? name

def lookup (p : Preparation α) (values : List α) (name : String) : Option α :=
  (p.position? name).bind fun i => values[i]?

def checkValues (p : Preparation α) (values : List α) : Except (CompileError α) Unit :=
  if values.length = p.parameters.length then .ok ()
  else .error (.parameterCount p.parameters.length values.length)

variable [Scalar α]

/-- The value of a slot, unless there is no such slot or a parameter has no value. -/
def evaluateSlot (p : Preparation α) (slot : Nat) (values : List α) : Option (Cartesian α) :=
  p.slots[slot]?.bind fun s => s.expr.evaluate (p.lookup values)

def missing (p : Preparation α) (expr : Polynomial α) : String :=
  (expr.symbols.find? fun s => (p.position? s).isNone).getD ""

/-- Write the values of slots into successive pairs of the buffer. The buffer is returned as it was
left, with the error at which writing stopped. -/
def writeSlots (p : Preparation α) (values : List α) :
    List (ParameterSlot α) → List α → List α × Except (CompileError α) Unit
  | s :: slots, re :: im :: rest =>
    match s.expr.evaluate (p.lookup values) with
    | some z =>
      let (left, result) := writeSlots p values slots rest
      (z.re :: z.im :: left, result)
    | none => (re :: im :: rest, .error (.unboundParameter (p.missing s.expr)))
  | _, buffer => (buffer, .ok ())

def prepareInto (p : Preparation α) (values buffer : List α) :
    List α × Except (CompileError α) Unit :=
  match p.checkValues values with
  | .error e => (buffer, .error e)
  | .ok () =>
    if buffer.length < p.bufferLen then
      (buffer, .error (.bufferSize p.bufferLen buffer.length))
    else p.writeSlots values p.slots buffer

def prepare (p : Preparation α) (values : List α) : Except (CompileError α) (List α) :=
  let (buffer, result) := p.prepareInto values (List.replicate p.bufferLen 0)
  result.map fun _ => buffer

def bind (p : Preparation α) (named : String → Option α) : Except (CompileError α) (List α) :=
  p.parameters.mapM fun name =>
    match named name with
    | some v => .ok v
    | none => .error (.unboundParameter name)

end Preparation
end GateFusion
