import GateFusion.Document.Fields
import GateFusion.Document.Json
import GateFusion.Gate.Standard

/-!
# Expressions and gates as nodes

Expressions, standard gates and angles in documents: a case without data is its name, any other a
mapping from its name to its data.
-/

namespace GateFusion.Document

def Expression.toNode : Expr Binary64 → Node
  | .constant v => .map [("Constant", .float v)]
  | .symbol name => .map [("Symbol", .text name)]
  | .pi => .text "Pi"
  | .neg e => .map [("Neg", toNode e)]
  | .add a b => .map [("Add", .seq [toNode a, toNode b])]
  | .sub a b => .map [("Sub", .seq [toNode a, toNode b])]
  | .mul a b => .map [("Mul", .seq [toNode a, toNode b])]
  | .div a b => .map [("Div", .seq [toNode a, toNode b])]

def Expression.ofNode? : Node → Option (Expr Binary64)
  | .text "Pi" | .map [("Pi", .null)] => some .pi
  | .map [("Constant", v)] => v.number?.map .constant
  | .map [("Symbol", v)] => v.string?.map .symbol
  | .map [("Neg", e)] => do return .neg (← ofNode? e)
  | .map [("Add", .seq [a, b])] => do return .add (← ofNode? a) (← ofNode? b)
  | .map [("Sub", .seq [a, b])] => do return .sub (← ofNode? a) (← ofNode? b)
  | .map [("Mul", .seq [a, b])] => do return .mul (← ofNode? a) (← ofNode? b)
  | .map [("Div", .seq [a, b])] => do return .div (← ofNode? a) (← ofNode? b)
  | _ => none

def GateCase.name : StandardGate Binary64 → String
  | .id => "I" | .x => "X" | .y => "Y" | .z => "Z" | .h => "H"
  | .s => "S" | .sdg => "Sdg" | .t => "T" | .tdg => "Tdg" | .sx => "SX"
  | .rx _ => "Rx" | .ry _ => "Ry" | .rz _ => "Rz" | .p _ => "P" | .u _ _ _ => "U"
  | .cx => "CX" | .cy => "CY" | .cz => "CZ" | .ch => "CH" | .swap => "Swap"
  | .crx _ => "CRx" | .cry _ => "CRy" | .crz _ => "CRz" | .cp _ => "CP" | .rzz _ => "RZZ"
  | .ccx => "CCX" | .cswap => "CSwap"

def GateCase.gate? : String → List (Expr Binary64) → Option (StandardGate Binary64)
  | "I", [] => some .id
  | "X", [] => some .x
  | "Y", [] => some .y
  | "Z", [] => some .z
  | "H", [] => some .h
  | "S", [] => some .s
  | "Sdg", [] => some .sdg
  | "T", [] => some .t
  | "Tdg", [] => some .tdg
  | "SX", [] => some .sx
  | "Rx", [a] => some (.rx a)
  | "Ry", [a] => some (.ry a)
  | "Rz", [a] => some (.rz a)
  | "P", [a] => some (.p a)
  | "U", [a, b, c] => some (.u a b c)
  | "CX", [] => some .cx
  | "CY", [] => some .cy
  | "CZ", [] => some .cz
  | "CH", [] => some .ch
  | "Swap", [] => some .swap
  | "CRx", [a] => some (.crx a)
  | "CRy", [a] => some (.cry a)
  | "CRz", [a] => some (.crz a)
  | "CP", [a] => some (.cp a)
  | "RZZ", [a] => some (.rzz a)
  | "CCX", [] => some .ccx
  | "CSwap", [] => some .cswap
  | _, _ => none

def GateCase.toNode (g : StandardGate Binary64) : Node :=
  match g.parameters with
  | [] => .text (name g)
  | [e] => .map [(name g, Expression.toNode e)]
  | es => .map [(name g, .seq (es.map Expression.toNode))]

/-- The standard gate of a node. Three parameters are a list, a single one is not. -/
def GateCase.ofNode? : Node → Option (StandardGate Binary64)
  | .text name | .map [(name, .null)] => gate? name []
  | .map [(name, .seq [a, b, c])] => do
    gate? name [← Expression.ofNode? a, ← Expression.ofNode? b, ← Expression.ofNode? c]
  | .map [(name, e)] => do gate? name [← Expression.ofNode? e]
  | _ => none

def AffineAngle.toNode (a : Angle Binary64) : Node :=
  .map [("constant", .float a.constantPart),
    ("terms", .map (a.terms.map fun t => (t.1, .float t.2)))]

/-- The weights of symbols; of two for one symbol the last stays. -/
def AffineAngle.terms? : Node → Option (OrderedMap String Binary64)
  | .map entries => do
    let terms ← entries.mapM fun e => (e.2.number?).map fun w => (e.1, w)
    return OrderedMap.ofList compare terms
  | _ => none

def AffineAngle.fieldNames : List String := ["constant", "terms"]

def AffineAngle.ofNode? (n : Node) : Option (Angle Binary64) :=
  match n.fields? true false fieldNames with
  | some [some c, some ts] => do return ⟨← c.number?, ← terms? ts⟩
  | _ => none

/-- The affine angle of a JSON text, in which other fields do not matter. -/
def AffineAngle.ofJson? (source : String) : Option (Angle Binary64) :=
  (Json.readRecord? fieldNames source).bind ofNode?

end GateFusion.Document
