import GateFusion.Document.Node
import GateFusion.Document.Yaml.Token

/-!
# Trees of tokens

The only document that a list of tokens describes. What is missing, such as the value of a key
without one, is an empty plain scalar. Keys are scalars.
-/

namespace GateFusion.Document.Yaml

/-- Whether an item, a key or a value of a block is missing, given what follows. -/
def isMissing : List Token → Bool
  | [] | .item :: _ | .key :: _ | .value :: _ | .blockEnd :: _ => true
  | _ => false

/-- Whether a key or a value of a flow collection is missing, given what follows. -/
def isMissingInFlow : List Token → Bool
  | .value :: _ | .comma :: _ | .closeSequence :: _ | .closeMapping :: _ => true
  | _ => false

def scalarText? : Node → Option String
  | .plain s | .text s => some s
  | _ => none

mutual

def node? : Nat → List Token → Option (Node × List Token)
  | 0, _ => none
  | fuel + 1, ts =>
    match ts with
    | .plain s :: rest => some (.plain s, rest)
    | .quoted s :: rest => some (.text s, rest)
    | .openSequence :: rest => (flowItems? fuel rest).map fun (xs, r) => (.seq xs, r)
    | .openMapping :: rest => (flowFields? fuel rest).map fun (xs, r) => (.map xs, r)
    | .blockSequence :: rest =>
      match blockItems? fuel rest with
      | some (xs, .blockEnd :: r) => some (.seq xs, r)
      | _ => none
    | .blockMapping :: rest =>
      match blockFields? fuel rest with
      | some (xs, .blockEnd :: r) => some (.map xs, r)
      | _ => none
    | _ => none

def blockItems? : Nat → List Token → Option (List Node × List Token)
  | 0, _ => none
  | fuel + 1, .item :: rest => do
    let (x, rest) ← if isMissing rest then some (.plain "", rest) else node? fuel rest
    let (xs, rest) ← blockItems? fuel rest
    return (x :: xs, rest)
  | _ + 1, ts => some ([], ts)

/-- A key or a value of a block mapping. The items of a sequence may stand in the column of the
keys. -/
def blockPart? : Nat → List Token → Option (Node × List Token)
  | 0, _ => none
  | fuel + 1, ts =>
    match ts with
    | .item :: _ => (blockItems? fuel ts).map fun (xs, r) => (.seq xs, r)
    | _ => if isMissing ts then some (.plain "", ts) else node? fuel ts

def blockFields? : Nat → List Token → Option (List (String × Node) × List Token)
  | 0, _ => none
  | fuel + 1, .key :: rest => do
    let (k, rest) ← blockPart? fuel rest
    let (x, rest) ←
      match rest with
      | .value :: rest => blockPart? fuel rest
      | _ => some (.plain "", rest)
    let (xs, rest) ← blockFields? fuel rest
    return ((← scalarText? k, x) :: xs, rest)
  | _ + 1, ts => some ([], ts)

def flowPart? : Nat → List Token → Option (Node × List Token)
  | 0, _ => none
  | fuel + 1, ts => if isMissingInFlow ts then some (.plain "", ts) else node? fuel ts

/-- A field of a flow collection. Without the mark of a key it has no value. -/
def flowField? : Nat → List Token → Option ((String × Node) × List Token)
  | 0, _ => none
  | fuel + 1, .key :: rest => do
    let (k, rest) ← flowPart? fuel rest
    let (x, rest) ←
      match rest with
      | .value :: rest => flowPart? fuel rest
      | _ => some (.plain "", rest)
    return ((← scalarText? k, x), rest)
  | fuel + 1, ts => do
    let (k, rest) ← node? fuel ts
    return ((← scalarText? k, .plain ""), rest)

/-- The items of a flow sequence after its opening bracket. A field is a mapping by itself. -/
def flowItems? : Nat → List Token → Option (List Node × List Token)
  | 0, _ => none
  | _ + 1, .closeSequence :: rest => some ([], rest)
  | fuel + 1, ts => do
    let (x, rest) ←
      match ts with
      | .key :: _ => (flowField? fuel ts).map fun (field, r) => (.map [field], r)
      | _ => node? fuel ts
    match rest with
    | .comma :: rest => (flowItems? fuel rest).map fun (xs, r) => (x :: xs, r)
    | .closeSequence :: rest => some ([x], rest)
    | _ => none

def flowFields? : Nat → List Token → Option (List (String × Node) × List Token)
  | 0, _ => none
  | _ + 1, .closeMapping :: rest => some ([], rest)
  | fuel + 1, ts => do
    let (field, rest) ← flowField? fuel ts
    match rest with
    | .comma :: rest => (flowFields? fuel rest).map fun (xs, r) => (field :: xs, r)
    | .closeMapping :: rest => some ([field], rest)
    | _ => none

end

/-- The node of the only document. An empty text counts as a document, and the end of a document
may be marked more than once. -/
def document? (ts : List Token) : Option Node := do
  let fuel := 4 * ts.length + 4
  let (node, rest) ←
    match ts with
    | [] | [.documentStart] => some (.plain "", [])
    | .documentStart :: .documentEnd :: rest => some (.plain "", rest)
    | .documentStart :: rest => node? fuel rest
    | _ => node? fuel ts
  if rest.all (· = .documentEnd) then some node else none

end GateFusion.Document.Yaml
