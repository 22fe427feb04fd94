import GateFusion.Proofs.Gate.Standard
import GateFusion.Proofs.Reals
import GateFusion.Proofs.State.Reorder
import Mathlib.Data.Matrix.Mul

/-!
# The dense operator of a gate

A gate that is extended to all qubits of a state in ascending order is one large matrix, and
applying the gate in place multiplies the amplitudes by that matrix. Gathering all bits of an index
gives the index, so the operator on all qubits is the matrix product itself.
-/

namespace GateFusion
open GateMatrix Statevector

section Range
variable {n i c : Nat}

/-- All bits of an index, gathered in ascending order, are the index. -/
lemma gather_range (hi : i < 2 ^ n) : gather (List.range n) i = i := by
  refine Nat.eq_of_testBit_eq fun j => ?_
  rw [testBit_gather]
  by_cases hj : j < n
  · rw [List.getElem?_range hj, Option.map_some, Option.getD_some]
  · have hle := Nat.not_lt.mp hj
    rw [List.getElem?_eq_none (by simpa using hle), Option.map_none, Option.getD_none]
    exact (Nat.testBit_lt_two_pow (hi.trans_le (Nat.pow_le_pow_right Nat.two_pos hle))).symm

/-- Replacing all bits of an index replaces the index. -/
lemma patch_range (hi : i < 2 ^ n) (hc : c < 2 ^ n) : patch (List.range n) i c = c := by
  have hlt : patch (List.range n) i c < 2 ^ n := patch_lt (by simp) hi
  have hgather : gather (List.range n) (patch (List.range n) i c) = c :=
    gather_patch List.nodup_range (by rwa [List.length_range])
  rwa [gather_range hlt] at hgather

end Range

namespace Statevector
variable {α : Type} [Exact α] {s : Statevector α} {lookup : String → Option α}

/-- The amplitudes of a state of `n` qubits as a vector. -/
def vector (n : Nat) (s : Statevector α) : Fin (2 ^ n) → Cartesian α := fun i => s.amp i

/-- A matrix that acts on all qubits in ascending order multiplies the vector of amplitudes. -/
lemma act_range (n : Nat) (m : Nat → Nat → Cartesian α) (amp : Nat → Cartesian α)
    (i : Fin (2 ^ n)) : act (List.range n) m amp i =
      (Matrix.of (fun r c : Fin (2 ^ n) => m r c)).mulVec (fun j => amp j) i := by
  rw [act, List.length_range, Finset.sum_range, Matrix.mulVec, dotProduct]
  refine Finset.sum_congr rfl fun c _ => ?_
  rw [gather_range i.isLt, patch_range i.isLt c.isLt, Matrix.of_apply]

/-- Applying a gate in place is multiplying by its matrix over all qubits. -/
theorem applyGate_dense (hs : s.WellFormed) (hwidth : s.numQubits ≤ 31) {g : Gate α}
    (hg : g.WellFormed) (hq : ∀ q ∈ g.qubits, q < s.numQubits) (hb : Binds lookup g.symbols) :
    ∃ dense values t, g.matrix.extend g.qubits (List.range s.numQubits) = .ok dense ∧
      dense.numQubits = s.numQubits ∧ dense.WellFormed ∧ dense.evaluate lookup = some values ∧
      s.applyGate g lookup = .ok t ∧ t.numQubits = s.numQubits ∧ t.WellFormed ∧
      t.vector s.numQubits = (squareOf s.numQubits values).mulVec (s.vector s.numQubits) := by
  have hsub : ∀ q ∈ g.qubits, q ∈ List.range s.numQubits := by simpa using hq
  have hlen : (List.range s.numQubits).length = s.numQubits := List.length_range
  have hextend := Gate.extend_eq_ok hg.entries hg.size hsub (hlen.trans_le hwidth)
  obtain ⟨t, happly, hwf, hn, hamp⟩ := applyGate_spec hs hg hq hb
  refine ⟨_, _, t, hextend, hlen, wellFormed_ofFn,
    GateMatrix.evaluate_eq_some.mpr ⟨hb.mono fun n => mem_symbols_extended, rfl⟩, happly, hn, hwf,
    funext fun i => ?_⟩
  have hentry : ∀ r c : Fin (2 ^ s.numQubits),
      (ofFn (List.range s.numQubits).length (extendedEntry g.matrix g.qubits
        (List.range s.numQubits))).value (valuation lookup) r c =
      (extendedEntry g.matrix g.qubits (List.range s.numQubits) r c).value (valuation lookup) := by
    intro r c
    exact value_ofFn (by rw [hlen]; exact r.isLt) (by rw [hlen]; exact c.isLt) _
  calc t.amp i
      = act g.qubits (g.matrix.value (valuation lookup)) s.amp i := by rw [hamp, Gate.apply]
    _ = act (List.range s.numQubits) (fun r c => (extendedEntry g.matrix g.qubits
          (List.range s.numQubits) r c).value (valuation lookup)) s.amp i := by
        rw [act_extendedEntry hsub hg.nodup List.nodup_range]
    _ = (squareOf s.numQubits _).mulVec (s.vector s.numQubits) i := by
        rw [act_range, squareOf_values hlen]
        simp only [hentry]
        rfl

section Sample

/-- A rotation of qubit zero under the control of qubit two, by an angle known when the circuit
runs. -/
noncomputable def controlledRotation : Gate ℝ :=
  ⟨"crx", [2, 0], (Quad.rotateX (.symbol "theta")).controlled⟩

lemma wellFormed_controlledRotation : controlledRotation.WellFormed := by
  have hcrx : Gate.standard (α := ℝ) (.crx (.symbol "theta")) [2, 0] = .ok controlledRotation := rfl
  exact (Gate.regular_of_standard hcrx).toWellFormed

/-- A gate with a symbol, on two of three qubits and in descending order. -/
theorem applyGate_dense_controlled : ∃ (dense : GateMatrix ℝ) (values : List (Cartesian ℝ))
    (t : Statevector ℝ), controlledRotation.matrix.extend [2, 0] [0, 1, 2] = .ok dense ∧
      dense.evaluate (fun _ => some 1) = some values ∧
      (Statevector.zero 3).applyGate controlledRotation (fun _ => some 1) = .ok t ∧
      t.vector 3 = (squareOf 3 values).mulVec ((Statevector.zero 3).vector 3) := by
  have hzero : (Statevector.zero (α := ℝ) 3).WellFormed := rfl
  have hbinds : Binds (fun _ => some (1 : ℝ)) controlledRotation.symbols := by
    intro n _
    rfl
  obtain ⟨dense, values, t, hextend, -, -, heval, happly, -, -, hproduct⟩ :=
    applyGate_dense hzero (by decide) wellFormed_controlledRotation (by decide) hbinds
  exact ⟨dense, values, t, hextend, heval, happly, hproduct⟩

end Sample

end Statevector
end GateFusion
