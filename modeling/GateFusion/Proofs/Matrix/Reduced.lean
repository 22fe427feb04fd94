import GateFusion.Proofs.Matrix.Extend
import GateFusion.Proofs.Parameter.NormalForm

/-!
# Reduced entries

Sums and products of entries collapse to numbers as soon as no symbol is left, so an entry that
operations return is symbolic exactly if it mentions a symbol. Products and extensions of matrices
only add and multiply entries and put zeros between them, and so keep whatever these operations
keep.
-/

namespace GateFusion

namespace Entry
variable {α : Type} [Scalar α] {a b e : Entry α}

/-- The polynomial of a symbolic entry is one that the operations build. -/
def Built : Entry α → Prop
  | .numeric _ => True
  | .symbolic p => ∃ d, p.Built d

/-- Numbers, and what polynomials collapse to. -/
inductive Reduced : Entry α → Prop
  | numeric (c : Cartesian α) : Reduced (.numeric c)
  | ofPolynomial {d : Nat} {p : Polynomial α} : p.Built d → Reduced (.ofPolynomial p)

lemma Reduced.built (he : e.Reduced) : e.Built := by
  cases he with
  | numeric c => trivial
  | ofPolynomial hp =>
    unfold Entry.ofPolynomial
    split
    · trivial
    · exact ⟨_, hp⟩

lemma Built.wellFormed [Std.TransCmp (Scalar.totalCmp (α := α))] (he : e.Built) :
    e.WellFormed := by
  cases e with
  | numeric c => trivial
  | symbolic p =>
    obtain ⟨d, hp⟩ := he
    exact hp.wellFormed

/-- Sums are reduced, whether or not the summands are. -/
lemma Built.add (ha : a.Built) (hb : b.Built) : (a.add b).Reduced := by
  cases a with
  | numeric c =>
    cases b with
    | numeric d => exact .numeric _
    | symbolic q =>
      obtain ⟨_, hq⟩ := hb
      exact .ofPolynomial (.add hq (.constant c))
  | symbolic p =>
    obtain ⟨_, hp⟩ := ha
    cases b with
    | numeric d => exact .ofPolynomial (.add hp (.constant d))
    | symbolic q =>
      obtain ⟨_, hq⟩ := hb
      exact .ofPolynomial (.add hp hq)

/-- Products are reduced, whether or not the factors are. -/
lemma Built.mul (ha : a.Built) (hb : b.Built) : (a.mul b).Reduced := by
  cases a with
  | numeric c =>
    cases b with
    | numeric d => exact .numeric _
    | symbolic q =>
      obtain ⟨_, hq⟩ := hb
      exact .ofPolynomial (.scale c hq)
  | symbolic p =>
    obtain ⟨_, hp⟩ := ha
    cases b with
    | numeric d => exact .ofPolynomial (.scale d hp)
    | symbolic q =>
      obtain ⟨_, hq⟩ := hb
      exact .ofPolynomial (.mul hp hq)

lemma closed_built : Closed (Built (α := α)) where
  numeric _ := trivial
  add ha hb := (ha.add hb).built
  mul ha hb := (ha.mul hb).built

lemma closed_reduced : Closed (Reduced (α := α)) where
  numeric := .numeric
  add ha hb := ha.built.add hb.built
  mul ha hb := ha.built.mul hb.built

end Entry

namespace GateMatrix
variable {α : Type} [Scalar α] {a b m : GateMatrix α}

lemma eq_of_identity {k : Nat} (h : identity k = .ok m) :
    m = ofFn k fun row col => if row = col then 1 else 0 := by
  obtain ⟨-, -, h⟩ := bind_eq_ok.mp h
  exact (Except.ok.inj h).symm

section Closed
variable {P : Entry α → Prop} (hP : Entry.Closed P)
include hP

lemma forall_mem_identity {k : Nat} (h : identity k = .ok m) : ∀ e ∈ m.entries.toList, P e := by
  obtain rfl := eq_of_identity h
  refine forall_mem_ofFn fun r c _ _ => ?_
  split
  · exact hP.numeric 1
  · exact hP.numeric 0

lemma forall_mem_extend {own target : List Qubit} (ha : ∀ e ∈ a.entries.toList, P e)
    (h : a.extend own target = .ok m) : ∀ e ∈ m.entries.toList, P e := by
  intro e he
  rcases (extend_spec h).2 e he with rfl | he
  · exact hP.numeric 0
  · exact ha e he

end Closed

/-- All entries are reduced. -/
def Reduced (m : GateMatrix α) : Prop := ∀ e ∈ m.entries.toList, e.Reduced

end GateMatrix
end GateFusion
