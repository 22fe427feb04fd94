import GateFusion.Command.Binding
import GateFusion.Command.FileFault
import GateFusion.CompileError
import GateFusion.Decimal.Reader
import GateFusion.Document.Circuit

/-!
# Surroundings of a command

Commands are written over an interface to what surrounds them, so that they are ordinary functions
of it: files, printing, measuring time and drawing random words.
-/

namespace GateFusion.Command

/-- What commands use of their surroundings. -/
structure Host (m : Type → Type) where
  /-- Whether there is anything at a path. -/
  present : String → m Bool
  /-- The text of a file, or why it cannot be read. -/
  readText : String → m (Except FileFault String)
  /-- Write a file. The error is why it cannot be written. -/
  writeText : String → String → m (Except FileFault Unit)
  /-- Print a line. -/
  say : String → m Unit
  /-- Print a line about an error. -/
  complain : String → m Unit
  /-- Evaluate, and count the nanoseconds that takes. -/
  timed : {β : Type} → (Unit → β) → m (β × Nat)
  /-- Random words. -/
  words : Nat → m (Array UInt64)

inductive CommandError where
  | fileNotFound (path : String)
  | unreadable (path : String) (fault : FileFault)
  | unwritable (path : String) (fault : FileFault)
  | circuit (path : String) (e : Document.CircuitDocumentError)
  | config (path : String) (format : Document.Format)
  | binding (e : BindingError Decimal.ReadError)
  | compilation (e : CompileError Binary64)
  | execution (e : CompileError Binary64)
  | reference (e : SimulationError)
  | statesDiffer (difference : Binary64)

def CommandError.message : CommandError → String
  | .fileNotFound path => s!"File not found: {path}"
  | .unreadable path fault => s!"Failed to read file: {path}: {fault.message}"
  | .unwritable path fault => s!"Failed to write file: {path}: {fault.message}"
  | .circuit path e => s!"Failed to load circuit: {path}: {e.message}"
  | .config path format => s!"Failed to load config: {path}: Invalid {format.name}"
  | .binding e => e.message Decimal.ReadError.message
  | .compilation e => e.message
  | .execution e => s!"Failed to run compiled kernels: {e.message}"
  | .reference e => s!"Failed to simulate the unfused circuit: {e.message}"
  | .statesDiffer d =>
    s!"Fused state differs from the unfused state by {Decimal.scientific d}"

abbrev Action (m : Type → Type) := ExceptT CommandError m

variable {m : Type → Type} [Monad m]

def orFail {ε β : Type} (wrap : ε → CommandError) (r : Except ε β) : Action m β :=
  match r with
  | .ok v => pure v
  | .error e => throw (wrap e)

namespace Host
variable (host : Host m)

def print (line : String) : Action m Unit := host.say line

def source (path : String) : Action m String := do
  if !(← host.present path) then throw (.fileNotFound path)
  orFail (.unreadable path) (← host.readText path)

end Host
end GateFusion.Command
