/-!
# Digits of a radix

Natural numbers written in a radix up to 16, with letters of either case for the digits from ten.
-/

namespace GateFusion.Text

def digit? (radix : Nat) (c : Char) : Option Nat :=
  let value :=
    if '0' ≤ c ∧ c ≤ '9' then c.toNat - '0'.toNat
    else if 'a' ≤ c ∧ c ≤ 'f' then c.toNat - 'a'.toNat + 10
    else if 'A' ≤ c ∧ c ≤ 'F' then c.toNat - 'A'.toNat + 10
    else radix
  if value < radix then some value else none

/-- The number written by a list of digits, of which there has to be at least one. -/
def natOfDigits? (radix : Nat) (cs : List Char) : Option Nat :=
  if cs.isEmpty then none
  else cs.foldlM (fun n c => (digit? radix c).map fun d => radix * n + d) 0

end GateFusion.Text
