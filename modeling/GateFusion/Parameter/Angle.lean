import GateFusion.Decimal.Text
import GateFusion.OrderedMap

/-!
# Affine angles

An angle `c + Σ wᵢ·symbolᵢ`. Sums and multiples drop symbols of weight zero and turn a negative
zero into a positive one, so that angles built alike compare equal. The comparison is total: it
orders constants and weights by `Scalar.totalCmp`, which lets angles be keys of ordered maps.
-/

namespace GateFusion

/-- A constant and the weights of the symbols. -/
structure Angle (α : Type) where
  constantPart : α
  terms : OrderedMap String α

namespace Angle
variable {α : Type} [Scalar α]

def constant (value : α) : Angle α := ⟨value + 0, []⟩

def symbol (name : String) : Angle α := ⟨0, [(name, 1)]⟩

def isConstant (a : Angle α) : Bool := a.terms.isEmpty

def scale (a : Angle α) (factor : α) : Angle α :=
  ⟨a.constantPart * factor + 0,
    (a.terms.map fun t => (t.1, t.2 * factor)).filter fun t => !(t.2 == 0)⟩

def add (a b : Angle α) : Angle α :=
  let terms := b.terms.foldl
    (fun acc t => OrderedMap.upsert compare t.1 (fun w => w.getD 0 + t.2) acc) a.terms
  ⟨a.constantPart + b.constantPart + 0, terms.filter fun t => !(t.2 == 0)⟩

def evaluate (a : Angle α) (lookup : String → Option α) : Option α :=
  a.terms.foldlM (fun acc t => (lookup t.1).map fun v => acc + t.2 * v) a.constantPart

def symbols (a : Angle α) : NameSet :=
  a.terms.map (·.1)

def cmp (a b : Angle α) : Ordering :=
  (Scalar.totalCmp a.constantPart b.constantPart).then
    (OrderedMap.compareBy compare Scalar.totalCmp a.terms b.terms)

instance : BEq (Angle α) := ⟨fun a b => a.cmp b == .eq⟩

end Angle

/-- The text of one term; a weight of one is left out. -/
def Angle.termText (name : String) (weight : Binary64) : String :=
  if weight == 1 then name else s!"{Decimal.plain weight}*{name}"

/-- The terms and, unless it is zero beside terms, the constant. -/
def Angle.text (a : Angle Binary64) : String :=
  let terms := a.terms.map fun t => termText t.1 t.2
  let constant := Decimal.plain a.constantPart
  if terms.isEmpty then constant
  else " + ".intercalate (if a.constantPart == 0 then terms else terms ++ [constant])

end GateFusion
