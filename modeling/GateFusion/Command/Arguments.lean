import GateFusion.Decimal.Reader

/-!
# Command line

Options are given in a long form, `--name value` or `--name=value`, or in a short form, `-n value`,
`-nvalue` or `-n=value`; short options without a value may share a dash. A value that is a word of
its own does not start with a dash, unless it is a single dash. The first word that is no option
names the command, whose own options follow.
-/

namespace GateFusion.Command

/-- How often an option may be given, whether it takes a value, or whether it ends the command line
and asks for a text instead. -/
inductive OptionKind where
  | switch
  | counted
  | single
  | repeated
  | showHelp
  | showVersion
deriving DecidableEq

/-- An option and the values it accepts. -/
structure OptionSpec where
  long : String
  short : Option Char
  kind : OptionKind
  accepts : String → Bool

/-- Why reading a command line ends early. -/
inductive EarlyEnd where
  | usage (fault : String)
  | help
  | version

/-- The options given so far with their values, in order; options without a value have an empty
one. -/
abbrev Given := List (String × String)

def count? (s : String) : Option Nat :=
  let digits :=
    match s.toList with
    | '+' :: rest => rest
    | cs => cs
  if digits.isEmpty || !digits.all Char.isDigit then none
  else
    let n := Decimal.natOfDigits 0 digits
    if n < Nat.pow 2 64 then some n else none

def real? (s : String) : Option Binary64 :=
  match Decimal.read s with
  | .ok x => some x
  | .error _ => none

def giveSwitch (spec : OptionSpec) (given : Given) : Except EarlyEnd Given :=
  match spec.kind with
  | .showHelp => .error .help
  | .showVersion => .error .version
  | .switch =>
    if (given.lookup spec.long).isSome then .error (.usage s!"'--{spec.long}' given twice")
    else .ok (given ++ [(spec.long, "")])
  | .counted => .ok (given ++ [(spec.long, "")])
  | .single | .repeated => .error (.usage s!"'--{spec.long}' needs a value")

def giveValue (spec : OptionSpec) (value : String) (given : Given) : Except EarlyEnd Given :=
  if spec.kind ≠ .single ∧ spec.kind ≠ .repeated then
    .error (.usage s!"'--{spec.long}' takes no value")
  else if spec.kind = .single ∧ (given.lookup spec.long).isSome then
    .error (.usage s!"'--{spec.long}' given twice")
  else if spec.accepts value then .ok (given ++ [(spec.long, value)])
  else .error (.usage s!"invalid value '{value}' for '--{spec.long}'")

/-- What is left to do after a word: nothing, or to take the next word as the value of an option. -/
abbrev Pending := Option OptionSpec

def readShorts (specs : List OptionSpec) : List Char → Given → Except EarlyEnd (Given × Pending)
  | [], given => .ok (given, none)
  | c :: rest, given =>
    match specs.find? fun s => s.short = some c with
    | none => .error (.usage s!"unexpected argument '-{c}'")
    | some spec =>
      if spec.kind = .single ∨ spec.kind = .repeated then
        match rest with
        | [] => .ok (given, some spec)
        | '=' :: value => return (← giveValue spec (String.ofList value) given, none)
        | value => return (← giveValue spec (String.ofList value) given, none)
      else do readShorts specs rest (← giveSwitch spec given)

def readLong (specs : List OptionSpec) (word : List Char) (given : Given) :
    Except EarlyEnd (Given × Pending) :=
  let name := String.ofList (word.takeWhile (· ≠ '='))
  match specs.find? fun s => s.long = name with
  | none => .error (.usage s!"unexpected argument '--{name}'")
  | some spec =>
    match word.dropWhile (· ≠ '=') with
    | _ :: value => return (← giveValue spec (String.ofList value) given, none)
    | [] =>
      if spec.kind = .single ∨ spec.kind = .repeated then .ok (given, some spec)
      else return (← giveSwitch spec given, none)

def isOption (word : String) : Bool :=
  match word.toList with
  | ['-'] => false
  | '-' :: _ => true
  | _ => false

/-- Read options up to the first word that is none, or that is a double dash. The result holds that
word and those after it. -/
def readOptions (specs : List OptionSpec) :
    List String → Pending → Given → Except EarlyEnd (Given × List String)
  | [], some spec, _ => .error (.usage s!"'--{spec.long}' needs a value")
  | [], none, given => .ok (given, [])
  | word :: rest, some spec, given =>
    if isOption word then .error (.usage s!"'--{spec.long}' needs a value")
    else do readOptions specs rest none (← giveValue spec word given)
  | word :: rest, none, given => do
    if !isOption word || word = "--" then return (given, word :: rest)
    else
      let (given, pending) ←
        match word.toList with
        | '-' :: '-' :: name => readLong specs name given
        | _ => readShorts specs (word.toList.drop 1) given
      readOptions specs rest pending given

def commonSpecs : List OptionSpec :=
  [⟨"verbose", some 'v', .counted, fun _ => true⟩, ⟨"help", some 'h', .showHelp, fun _ => true⟩]

def fusionSpecs : List OptionSpec :=
  [⟨"config", some 'c', .single, fun _ => true⟩,
    ⟨"max-fused-arity", none, .single, fun v => (count? v).isSome⟩,
    ⟨"operation-count-ceiling", none, .single, fun v => (count? v).isSome⟩,
    ⟨"zero-skip-threshold", none, .single, fun v => (real? v).isSome⟩]

def compileSpecs : List OptionSpec :=
  [⟨"input", some 'i', .single, fun _ => true⟩, ⟨"output", some 'o', .single, fun _ => true⟩] ++
    fusionSpecs ++ commonSpecs

def runSpecs : List OptionSpec :=
  [⟨"input", some 'i', .single, fun _ => true⟩, ⟨"param", some 'p', .repeated, fun _ => true⟩,
    ⟨"shots", some 's', .single, fun v => (count? v).isSome⟩,
    ⟨"verify", none, .switch, fun _ => true⟩] ++ fusionSpecs ++ commonSpecs

/-- Where a configuration comes from: a file, and values that override it. -/
structure FusionOptions where
  config : Option String
  maxFusedArity : Option Nat
  operationCountCeiling : Option Nat
  zeroSkipThreshold : Option Binary64

inductive Request where
  | compile (input : String) (fusion : FusionOptions) (output : Option String)
  | run (input : String) (fusion : FusionOptions) (bindings : List String) (shots : Nat)
      (verify : Bool)
  | components

/-- The options of a command, after which no words may be left. -/
def ownOptions (specs : List OptionSpec) (words : List String) : Except EarlyEnd Given := do
  let (given, rest) ← readOptions specs words none []
  match rest with
  | [] | ["--"] => return given
  | word :: _ => throw (.usage s!"unexpected argument '{word}'")

def fusionOptions (given : Given) : FusionOptions :=
  { config := given.lookup "config"
    maxFusedArity := (given.lookup "max-fused-arity").bind count?
    operationCountCeiling := (given.lookup "operation-count-ceiling").bind count?
    zeroSkipThreshold := (given.lookup "zero-skip-threshold").bind real? }

def inputFile (given : Given) : Except EarlyEnd String :=
  match given.lookup "input" with
  | some path => .ok path
  | none => .error (.usage "'--input' is required")

def commandNames : List String := ["compile", "run", "version", "help"]

def readCommand (name : String) (words : List String) : Except EarlyEnd Request := do
  match name with
  | "compile" =>
    let given ← ownOptions compileSpecs words
    return .compile (← inputFile given) (fusionOptions given) (given.lookup "output")
  | "run" =>
    let given ← ownOptions runSpecs words
    let bindings := (given.filter fun g => g.1 = "param").map (·.2)
    let shots := ((given.lookup "shots").bind count?).getD 1024
    return .run (← inputFile given) (fusionOptions given) bindings shots
      (given.lookup "verify").isSome
  | "version" =>
    let _ ← ownOptions commonSpecs words
    return .components
  | "help" =>
    match words with
    | [] => throw .help
    | [topic] =>
      if commandNames.contains topic then throw .help
      else throw (.usage s!"unrecognized command '{topic}'")
    | _ => throw (.usage "too many commands")
  | _ => throw (.usage s!"unrecognized command '{name}'")

def Request.ofArguments (words : List String) : Except EarlyEnd Request := do
  let specs := ⟨"version", some 'V', .showVersion, fun _ => true⟩ :: commonSpecs
  let (_, rest) ← readOptions specs words none []
  match rest with
  | [] | "--" :: _ => throw (.usage "a command is required")
  | name :: more => readCommand name more

end GateFusion.Command
