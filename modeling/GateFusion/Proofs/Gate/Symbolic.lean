import GateFusion.Proofs.Gate.Scaling
import GateFusion.Proofs.Gate.Standard
import GateFusion.Proofs.Ordered

/-!
# Gates that depend on parameters

Symbols may cancel when gates are composed. A polynomial whose symbols cancel collapses to a number
on the spot, so a composed gate counts as symbolic exactly if one of its entries mentions a symbol.
-/

namespace GateFusion

namespace Gate
variable {α : Type} [Scalar α] {earlier later fused g : Gate α}

/-- Standard gates, and whatever they compose to. -/
inductive FromLibrary : Gate α → Prop
  | standard {g : StandardGate α} {qs : List Qubit} {gate : Gate α} :
      standard g qs = .ok gate → FromLibrary gate
  | compose {earlier later fused : Gate α} : FromLibrary earlier → FromLibrary later →
      compose earlier later = .ok fused → FromLibrary fused

lemma reduced_of_matrixOver (hg : g.matrix.Reduced) {qs : List Qubit} {m : GateMatrix α}
    (h : g.matrixOver qs = .ok m) : m.Reduced := by
  unfold matrixOver at h
  split at h
  · exact Except.ok.inj h ▸ hg
  · exact GateMatrix.forall_mem_extend Entry.closed_reduced hg h

lemma reduced_of_compose (he : earlier.matrix.Reduced) (hl : later.matrix.Reduced)
    (h : compose earlier later = .ok fused) : fused.matrix.Reduced := by
  rw [compose_eq] at h
  obtain ⟨-, -, h⟩ := bind_eq_ok.mp h
  obtain ⟨first, hfirst, h⟩ := bind_eq_ok.mp h
  obtain ⟨second, hsecond, h⟩ := bind_eq_ok.mp h
  obtain ⟨m, hm, h⟩ := bind_eq_ok.mp h
  obtain rfl := Except.ok.inj h
  exact GateMatrix.forall_mem_multiply Entry.closed_reduced (reduced_of_matrixOver hl hsecond)
    (reduced_of_matrixOver he hfirst) hm

variable [Std.TransCmp (Scalar.totalCmp (α := α))]

lemma FromLibrary.reduced (hg : g.FromLibrary) : g.matrix.Reduced := by
  induction hg with
  | standard h => exact (reduced_of_standard h).2
  | compose _ _ h ihe ihl => exact reduced_of_compose ihe ihl h

end Gate

section Sample

end Sample
end GateFusion
