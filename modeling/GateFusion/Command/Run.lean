import GateFusion.Command.Phases
import GateFusion.Simulation.Sampling

/-!
# Running a circuit

The command that compiles a circuit, runs it on the state with all qubits zero, may compare the
outcome with the circuit as it was before fusion, and measures the final state.
-/

namespace GateFusion.Command

def agreementTolerance : Binary64 := 1e-9

def listedOutcomes : Nat := 16

def byCount (counts : OrderedMap String Nat) : List (String × Nat) :=
  counts.mergeSort fun a b => b.2 ≤ a.2

def outcomeLine (shots : Nat) (outcome : String × Nat) : String :=
  let share := Binary64.ofNat outcome.2 / Binary64.ofNat (max shots 1) * 100.0
  let count := Decimal.padLeft 6 (toString outcome.2)
  s!"  {outcome.1}  {count}  ({Decimal.padLeft 5 (Decimal.fixed 1 share)}%)"

variable {m : Type → Type} [Monad m] (host : Host m)

/-- Compare a final state with what the circuit before fusion leaves. -/
def verifyState (graph : CircuitGraph Binary64) (bound : String → Option Binary64)
    (state : Statevector Binary64) : Action m Unit := do
  let (reference, outcome) := (Statevector.zero state.numQubits).applyGraph graph bound
  orFail .reference outcome
  let difference := reference.maxAbsDiff state
  if agreementTolerance < difference then throw (.statesDiffer difference)
  host.print ("✓ Fused and unfused states agree (max difference " ++
    Decimal.scientific difference ++ ")")

def measure (state : Statevector Binary64) (shots : Nat) : Action m Unit := do
  let words ← host.words shots
  let counts := state.sampleCounts shots fun i => Scalar.ofRandomWord (words.getD i 0)
  let outcomes := byCount counts
  host.print "✓ Results:"
  (outcomes.take listedOutcomes).forM fun o => host.print (outcomeLine shots o)
  if listedOutcomes < outcomes.length then
    host.print s!"  ... {outcomes.length - listedOutcomes} more outcomes"

def run (input : String) (options : FusionOptions) (bindings : List String) (shots : Nat)
    (verify : Bool) : Action m Unit := do
  host.print s!"→ Running {input} ({shots} shots)"
  let config ← resolveConfig host options
  let values ← orFail .binding (Binding.parseAll Decimal.read bindings)
  let bound := fun name => OrderedMap.get? compare name values
  let (circuit, parsing) ← loadTimed host input
  let c ← compileTimed host config circuit.graph parsing
  host.print s!"  After fusion there are {c.compiled.report.blocksAfter} blocks"
  let start : Statevector Binary64 := .zero circuit.graph.numQubits
  let (outcome, time) ← host.timed fun _ => c.compiled.runNamed start.amplitudes bound
  let state : Statevector Binary64 := { start with amplitudes := ← orFail .execution outcome }
  reportPhases host (c.phases ++ [⟨"simulation", time⟩])
  if verify then verifyState host circuit.graph bound state
  measure host state shots

end GateFusion.Command
