import GateFusion.Command.Load
import GateFusion.Decimal.Text
import GateFusion.Simulation.Interpreter
import GateFusion.Simulation.Pipeline

/-!
# Phases

The phases of a compilation with the time that each of them took.
-/

namespace GateFusion.Command

/-- A phase and how many nanoseconds it took. -/
structure Phase where
  name : String
  nanoseconds : Nat

def Phase.milliseconds (p : Phase) : Binary64 :=
  Binary64.ofNat p.nanoseconds / 1e9 * 1000.0

def Phase.line (p : Phase) : String :=
  let time := Decimal.fixed 3 p.milliseconds
  s!"  {Decimal.padRight 18 p.name} {Decimal.padLeft 10 time} ms"

/-- A circuit compiled for the interpreter, and the phases up to there. -/
structure Compilation where
  compiled : CompiledCircuit Binary64
  phases : List Phase

variable {m : Type → Type} [Monad m] (host : Host m)

def reportPhases (phases : List Phase) : Action m Unit := do
  host.print "  Timings:"
  phases.forM fun p => host.print p.line

def loadTimed (path : String) : Action m (Circuit Binary64 × Phase) := do
  let (circuit, time) ← loadCircuit host path
  host.print s!"  Loaded: {circuit.graph.numQubits} qubits, {circuit.graph.numBlocks} gates"
  return (circuit, ⟨"parsing", time⟩)

/-- Fuse a graph and compile its kernels for the interpreter, phase by phase. -/
def compileTimed (config : FusionConfig Binary64) (graph : CircuitGraph Binary64)
    (parsing : Phase) : Action m Compilation := do
  let pipeline ← orFail .compilation (Pipeline.ofConfig config Interpreter.backend)
  let (fusion, fusionTime) ← host.timed fun _ => pipeline.engine.run graph
  let (report, fused) ← orFail .compilation fusion
  let (generation, generationTime) ← host.timed fun _ =>
    KernelSpec.generate fused.numQubits fused
  let generated ← orFail .compilation generation
  let (lowering, loweringTime) ← host.timed fun _ =>
    pipeline.lower fused.numQubits generated report
  return {
    compiled := ← orFail .compilation lowering
    phases := [parsing, ⟨"fusion", fusionTime⟩, ⟨"kernel generation", generationTime⟩,
      ⟨"backend", loweringTime⟩] }

end GateFusion.Command
