import GateFusion.Command.Compile
import GateFusion.Command.Run

/-!
# Carrying out a command line

Every command line ends with an exit code: zero if all went well, one if the command failed, and two
if the command line asks for nothing that can be done.
-/

namespace GateFusion.Command

def programName : String := "qfuse"

def programVersion : String := "0.1.0"

def componentLines : List String :=
  [s!"{programName} v{programVersion} - gate fusion and kernel generation for " ++
      "statevector simulation",
    "",
    "Components:",
    "  qfuse-ir              Gates, symbolic matrices and the circuit graph",
    "  qfuse-compile         Fusion engine and kernel spec generation",
    "  qfuse-adapter-interp  Reference interpreter backend",
    "  qfuse-cli             Command-line interface",
    "",
    "License:    Apache-2.0"]

def helpLines : List String :=
  ["Usage: qfuse [-v] <COMMAND>",
    "",
    "Commands:",
    "  compile  Fuse a circuit and report the generated kernels",
    "  run      Compile a circuit and run it on the reference interpreter",
    "  version  Show version information",
    "  help     Print this message",
    "",
    "Options of compile and run:",
    "  -i, --input <FILE>                Input circuit (JSON or YAML)",
    "  -c, --config <FILE>               Fusion config file (YAML or JSON)",
    "      --max-fused-arity <N>         Maximum number of qubits of a fused gate",
    "      --operation-count-ceiling <N> Largest nonzero-entry count of a fused gate",
    "      --zero-skip-threshold <X>     Magnitude ignored when estimating cost",
    "  -o, --output <FILE>               (compile) Write the kernel report as JSON",
    "  -p, --param <NAME=VALUE>          (run) Parameter binding, repeatable",
    "  -s, --shots <N>                   (run) Number of measurement shots [1024]",
    "      --verify                      (run) Compare with the unfused circuit"]

variable {m : Type → Type} [Monad m] (host : Host m)

def carryOut : Request → Action m Unit
  | .compile input options output => compile host input options output
  | .run input options bindings shots verify => run host input options bindings shots verify
  | .components => componentLines.forM host.print

def dispatch (arguments : List String) : m UInt32 := do
  match Request.ofArguments arguments with
  | .ok request =>
    match ← (carryOut host request).run with
    | .ok () => return 0
    | .error e =>
      host.complain s!"Error: {e.message}"
      return 1
  | .error .help =>
    helpLines.forM host.say
    return 0
  | .error .version =>
    host.say s!"{programName} {programVersion}"
    return 0
  | .error (.usage fault) =>
    host.complain s!"error: {fault}"
    return 2

end GateFusion.Command
