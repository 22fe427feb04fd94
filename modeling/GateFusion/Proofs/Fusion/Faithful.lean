import GateFusion.Proofs.Fusion.Composed
import GateFusion.Proofs.State.History

/-!
# Fusion and meaning

The engine merges pairs of blocks into the compositions of their gates. So the fused graph acts as
the gates of the circuit do.
-/

namespace GateFusion.FusionEngine
open CircuitGraph
variable {α : Type} [Exact α] {e : FusionEngine α} {g g' : CircuitGraph α} {w : Qubit → List Nat}

lemma kept_faithful (n : Nat) (accepted : List (Gate α)) :
    Kept fun g => ∃ w, Faithful n g w accepted := by
  constructor
  · rintro g ⟨w, hg⟩
    exact ⟨w, hg.sound⟩
  · rintro g g' w a b id first second fused ⟨w', hg⟩ hs hm hfused hmerge
    obtain rfl := hs.wired.unique hg.sound.wired
    exact hg.merge hm hfused hmerge

/-- Fusing a graph preserves the meaning of its gates. -/
theorem run_faithful {n : Nat} {accepted : List (Gate α)} {report : FusionReport α}
    (hg : Faithful n g w accepted) (h : e.run g = .ok (report, g')) :
    ∃ w', Faithful n g' w' accepted :=
  (kept_faithful n accepted).run ⟨w, hg⟩ h

end GateFusion.FusionEngine
