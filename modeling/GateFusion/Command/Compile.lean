import GateFusion.Command.Phases

/-!
# Compiling a circuit

The command that fuses a circuit, reports what became of it, and may write the report as JSON.
-/

namespace GateFusion.Command

def natsNode (ns : List Nat) : Document.Node :=
  .seq (ns.map fun (n : Nat) => .int n)

def fusionNode (r : FusionReport Binary64) : Document.Node :=
  .map [("blocks_before", .int r.blocksBefore), ("blocks_after", .int r.blocksAfter),
    ("merges", .int r.merges), ("stale_candidates", .int r.staleCandidates),
    ("cost_before", .float r.costBefore), ("cost_after", .float r.costAfter)]

def kernelNode (k : KernelSpec Binary64) : Document.Node :=
  .map [("id", .int k.id), ("qubits", natsNode k.qubits), ("origins", natsNode k.origins),
    ("symbolic", .bool k.isSymbolic)]

def reportNode (name : String) (config : FusionConfig Binary64) (c : Compilation) :
    Document.Node :=
  .map [("circuit", .text name), ("num_qubits", .int c.compiled.numQubits),
    ("config", Document.ConfigDocument.toNode config), ("fusion", fusionNode c.compiled.report),
    ("parameters", .seq (c.compiled.parameters.map .text)),
    ("kernels", .seq (c.compiled.kernels.map fun k => kernelNode k.spec)),
    ("timings_ms", .seq (c.phases.map fun p => .seq [.text p.name, .float p.milliseconds]))]

variable {m : Type → Type} [Monad m] (host : Host m)

def printSummary (c : CompiledCircuit Binary64) : Action m Unit := do
  let r := c.report
  host.print "✓ Compilation complete"
  host.print (s!"  After fusion there are {r.blocksAfter} blocks " ++
    s!"(from {r.blocksBefore}, {r.merges} merges)")
  host.print (s!"  Estimated cost: {Decimal.fixed 1 r.costBefore} -> " ++
    Decimal.fixed 1 r.costAfter)
  if !c.parameters.isEmpty then
    host.print ("  Parameters: " ++ ", ".intercalate c.parameters)

def compile (input : String) (options : FusionOptions) (output : Option String) :
    Action m Unit := do
  host.print s!"→ Compiling {input}"
  let config ← resolveConfig host options
  let (circuit, parsing) ← loadTimed host input
  host.print (s!"  Fusion: max arity {config.maxFusedArity}, ceiling " ++
    s!"{config.cost.operationCountCeiling}, zero-skip " ++
    Decimal.scientific config.cost.zeroSkipThreshold)
  let c ← compileTimed host config circuit.graph parsing
  printSummary host c.compiled
  reportPhases host c.phases
  match output with
  | none => return
  | some path =>
    let text := Document.Json.pretty 0 (reportNode circuit.name config c)
    orFail (.unwritable path) (← host.writeText path text)
    host.print s!"  Output: {path}"

end GateFusion.Command
