import GateFusion.Command.Run
import GateFusion.Proofs.Comparable

/-!
# What a comparison of states says

The largest distance between two states is a fold that passes over undefined distances. So a bound
on it is a bound on the defined distances, and a run that is verified may report agreement with a
state that has undefined amplitudes where the reference has none.
-/

namespace GateFusion
namespace Statevector
variable {α : Type} [Scalar α]

/-- The distance between the amplitudes at an index. -/
def distance (s t : Statevector α) (i : Nat) : α :=
  (s.amplitudes.getD i 0 - t.amplitudes.getD i 0).norm

/-- No defined distance exceeds the bound. -/
def DefinedWithin (s t : Statevector α) (bound : α) : Prop :=
  ∀ i < s.amplitudes.size, Scalar.Defined (s.distance t i) → s.distance t i ≤ bound

/-- The distances in the order in which they are compared. -/
lemma map_zip_eq_distances {s t : Statevector α} (hsize : s.amplitudes.size = t.amplitudes.size) :
    (s.amplitudes.toList.zip t.amplitudes.toList).map (fun p => (p.1 - p.2).norm) =
      (List.range s.amplitudes.size).map (s.distance t) := by
  apply List.ext_getElem
  · simp [hsize]
  · intro i hi hi'
    have hs : i < s.amplitudes.size := by simpa using hi'
    have ht : i < t.amplitudes.size := hsize ▸ hs
    simp [distance, hs, ht]

variable [Comparable α]

lemma maxAbsDiff_le_iff {s t : Statevector α} (hsize : s.amplitudes.size = t.amplitudes.size) :
    Scalar.Defined (s.maxAbsDiff t) ∧
      ∀ bound : α, 0 ≤ bound → (s.maxAbsDiff t ≤ bound ↔ s.DefinedWithin t bound) := by
  have hfold : s.maxAbsDiff t =
      ((List.range s.amplitudes.size).map (s.distance t)).foldl Scalar.larger 0 := by
    rw [maxAbsDiff, if_neg (not_not.mpr hsize), map_zip_eq_distances hsize]
  rw [hfold]
  have hzero : Scalar.Defined (0 : α) := Comparable.defined_zero
  refine ⟨(Scalar.foldl_larger_le_iff (t := 0) _ hzero).1, fun bound hbound => ?_⟩
  rw [(Scalar.foldl_larger_le_iff _ hzero).2, List.forall_mem_map]
  simp only [List.mem_range]
  exact and_iff_right hbound

end Statevector

namespace Command
open Statevector

/-- The line that reports agreement. -/
def agreementLine (difference : Binary64) : String :=
  "✓ Fused and unfused states agree (max difference " ++ Decimal.scientific difference ++ ")"

variable {m : Type → Type} [Monad m] [LawfulMonad m] (host : Host m)

lemma verifyState_of_applyGraph {graph : CircuitGraph Binary64} {lookup : String → Option Binary64}
    {s t : Statevector Binary64}
    (h : (Statevector.zero t.numQubits).applyGraph graph lookup = (s, .ok ())) :
    verifyState host graph lookup t =
      if agreementTolerance < s.maxAbsDiff t then throw (.statesDiffer (s.maxAbsDiff t))
      else host.print (agreementLine (s.maxAbsDiff t)) := by
  rw [verifyState, h]
  dsimp only [orFail]
  rw [pure_bind]
  split
  · apply ExceptT.ext
    simp
  · rfl

/-- A bound on the largest distance bounds the defined distances and says nothing about the others.
A verified run reports agreement exactly if the defined distances are within the tolerance. -/
theorem verification_decides_defined {s t : Statevector Binary64}
    (hsize : s.amplitudes.size = t.amplitudes.size) :
    (∀ bound : Binary64, 0 ≤ bound → (s.maxAbsDiff t ≤ bound ↔ s.DefinedWithin t bound)) ∧
      ∀ (graph : CircuitGraph Binary64) (lookup : String → Option Binary64),
        (Statevector.zero t.numQubits).applyGraph graph lookup = (s, .ok ()) →
        (s.DefinedWithin t agreementTolerance →
          verifyState host graph lookup t = host.print (agreementLine (s.maxAbsDiff t))) ∧
        (¬ s.DefinedWithin t agreementTolerance →
          verifyState host graph lookup t = throw (.statesDiffer (s.maxAbsDiff t))) := by
  obtain ⟨hdefined, hle⟩ := maxAbsDiff_le_iff hsize
  refine ⟨hle, ?_⟩
  intro graph lookup hgraph
  have htolerance : (0 : Binary64) ≤ agreementTolerance := by decide +kernel
  have hnot : ¬ agreementTolerance < s.maxAbsDiff t ↔ s.DefinedWithin t agreementTolerance := by
    rw [Scalar.not_lt_iff_le (Comparable.defined_of_le _ _ htolerance).2 hdefined]
    exact hle agreementTolerance htolerance
  rw [verifyState_of_applyGraph host hgraph]
  constructor
  · intro hwithin
    rw [if_neg (hnot.mpr hwithin)]
  · intro hwithin
    rw [if_pos (not_not.mp fun h => hwithin (hnot.mp h))]

section Sample

/-- One wire without a block. -/
def idleWire : CircuitGraph Binary64 := ⟨#[], [], [], #[none], #[none], 0, 0⟩

lemma applyGraph_idleWire (s : Statevector Binary64) (lookup : String → Option Binary64) :
    s.applyGraph idleWire lookup = (s, .ok ()) := by
  have hblocks : idleWire.blocks = [] := rfl
  rw [applyGraph, hblocks]
  rfl

/-- The state with qubit zero clear. -/
def zeroState : Statevector Binary64 := .zero 1

/-- The state with qubit zero clear, up to a difference below the tolerance. -/
def closeState : Statevector Binary64 := ⟨#[1, ⟨1e-12, 0⟩], 1⟩

/-- The state with qubit zero clear, an undefined amplitude in place of the one. -/
def undefinedState : Statevector Binary64 := ⟨#[⟨Scalar.nan, 0⟩, 0], 1⟩

theorem verification_decides_close :
    zeroState.amplitudes.size = closeState.amplitudes.size ∧
      zeroState.DefinedWithin closeState agreementTolerance ∧
      ∀ host : Host Id, zeroState.maxAbsDiff closeState ≤ agreementTolerance ∧
        verifyState host idleWire (fun _ => none) closeState =
          host.print (agreementLine (zeroState.maxAbsDiff closeState)) := by
  have hsize : zeroState.amplitudes.size = closeState.amplitudes.size := rfl
  have hwithin : zeroState.DefinedWithin closeState agreementTolerance := by
    intro i hi _
    change i < 2 at hi
    obtain rfl | rfl : i = 0 ∨ i = 1 := by omega
    · decide +kernel
    · decide +kernel
  refine ⟨hsize, hwithin, fun host => ?_⟩
  obtain ⟨hbound, hverify⟩ := verification_decides_defined host hsize
  refine ⟨(hbound _ (by decide +kernel)).mpr hwithin, ?_⟩
  exact (hverify idleWire _ (applyGraph_idleWire zeroState fun _ => none)).1 hwithin

/-- A run whose final state is undefined where the reference is not is reported to agree. -/
theorem verification_misses_undefined : CircuitGraph.empty 1 = .ok idleWire ∧
    zeroState.applyGraph idleWire (fun _ => none) = (zeroState, .ok ()) ∧
    zeroState.maxAbsDiff undefinedState ≤ 0 ∧
    ¬ Scalar.Defined (zeroState.distance undefinedState 0) ∧
    ∀ host : Host Id, verifyState host idleWire (fun _ => none) undefinedState =
      host.print (agreementLine 0) := by
  have hrun := applyGraph_idleWire zeroState fun _ => none
  refine ⟨rfl, hrun, rfl, Bool.false_ne_true, fun host => ?_⟩
  have hzero : zeroState.maxAbsDiff undefinedState = 0 := rfl
  rw [verifyState_of_applyGraph (t := undefinedState) host hrun, hzero, if_neg]
  decide +kernel

end Sample

end Command
end GateFusion
