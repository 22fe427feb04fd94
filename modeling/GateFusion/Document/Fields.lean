import GateFusion.Document.Node
import GateFusion.Document.Plain

/-!
# Typed reading of nodes

A node is read by the kind of value that its place asks for. Every reader refuses a node of another
kind. A record is a mapping; some formats also give it as the sequence of its fields in order.
-/

namespace GateFusion.Document.Node

def nat? (bound : Nat) : Node → Option Nat
  | .int (.ofNat n) => if n < bound then some n else none
  | .plain s => (Plain.unsigned? s.toList).filter (· < bound)
  | _ => none

def size? : Node → Option Nat := nat? (Nat.pow 2 64)

def number? : Node → Option Binary64
  | .int n => some (Binary64.ofInt n)
  | .float x => if Scalar.isFinite x then some x else none
  | .plain s => Plain.float? s
  | _ => none

def string? : Node → Option String
  | .text s | .plain s => some s
  | _ => none

def list? {β : Type} (item? : Node → Option β) : Node → Option (List β)
  | .seq items => items.mapM item?
  | .plain "" => some []
  | _ => none

def nullable? {β : Type} (value? : Node → Option β) : Node → Option (Option β)
  | .null => some none
  | .plain s => if Plain.isNull s then some none else (value? (.plain s)).map some
  | n => (value? n).map some

/-- The fields of a record with the given names, as far as they are there. No name may occur twice;
with `closed` no other names may occur. With `positional` the record may be a sequence, which may
end early. -/
def fields? (positional closed : Bool) (names : List String) : Node → Option (List (Option Node))
  | .map entries =>
    let known := entries.filter fun e => names.contains e.1
    if (closed && known.length != entries.length) || !decide (known.map (·.1)).Nodup then none
    else some (names.map fun n => entries.lookup n)
  | .seq items =>
    if !positional || names.length < items.length then none
    else some ((List.range names.length).map fun i => items[i]?)
  | .plain "" => some (names.map fun _ => none)
  | _ => none

def orDefault {β : Type} (value? : Node → Option β) (default : β) (field : Option Node) :
    Option β :=
  match field with
  | some n => value? n
  | none => some default

end GateFusion.Document.Node
