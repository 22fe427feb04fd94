import GateFusion.Proofs.Gate.Unitary
import Mathlib.Tactic.IntervalCases

/-!
# What single gates do to amplitudes

A gate whose matrix has one entry in each row multiplies amplitudes or moves them: a controlled
phase multiplies where both bits are set, a swap exchanges two bits. A Hadamard gate mixes two
amplitudes, of which one is zero when the qubit is in a basis state.
-/

namespace GateFusion
open GateMatrix Cartesian
variable {α : Type} [Exact α] {qs : List Qubit} {m : Nat → Nat → Cartesian α}
  {amp : Nat → Cartesian α} {i : Nat}

/-- If one column contributes to a row, one amplitude does. -/
lemma act_single {c₀ : Nat} (hc₀ : c₀ < 2 ^ qs.length)
    (h : ∀ c, c < 2 ^ qs.length → c ≠ c₀ → m (gather qs i) c * amp (patch qs i c) = 0) :
    act qs m amp i = m (gather qs i) c₀ * amp (patch qs i c₀) := by
  refine Finset.sum_eq_single_of_mem c₀ (Finset.mem_range.mpr hc₀) fun c hc hne => ?_
  exact h c (Finset.mem_range.mp hc) hne

/-- A diagonal matrix multiplies every amplitude. -/
lemma act_diagonal (hn : qs.Nodup) {d : Nat → Cartesian α}
    (hm : ∀ r c, r < 2 ^ qs.length → c < 2 ^ qs.length → m r c = if r = c then d r else 0) :
    act qs m amp i = d (gather qs i) * amp i := by
  have hrow := fun c => hm (gather qs i) c (gather_lt qs i)
  rw [act_single (gather_lt qs i), hrow _ (gather_lt qs i), if_pos rfl, patch_gather hn]
  intro c hc hne
  rw [hrow c hc, if_neg hne.symm, zero_mul]

/-- A matrix that undoes itself and moves basis states moves the amplitudes. -/
lemma act_involution {f : Nat → Nat} (hlt : ∀ c, c < 2 ^ qs.length → f c < 2 ^ qs.length)
    (hf : ∀ c, c < 2 ^ qs.length → f (f c) = c)
    (hm : ∀ r c, r < 2 ^ qs.length → c < 2 ^ qs.length → m r c = if r = f c then 1 else 0) :
    act qs m amp i = amp (patch qs i (f (gather qs i))) := by
  have hgather := gather_lt qs i
  have hrow := fun c => hm (gather qs i) c hgather
  rw [act_single (hlt _ hgather), hrow _ (hlt _ hgather), if_pos (hf _ hgather).symm, one_mul]
  intro c hc hne
  have hnot : gather qs i ≠ f c := by
    intro h
    rw [h, hf c hc] at hne
    exact hne rfl
  rw [hrow c hc, if_neg hnot, zero_mul]

section Gates
variable {a b : Qubit} (v : String → α)

lemma gather_single (a : Qubit) (i : Nat) : gather [a] i = (i.testBit a).toNat := by
  rw [Nat.toNat_testBit]
  rfl

lemma gather_pair (a b : Qubit) (i : Nat) :
    gather [a, b] i = (i.testBit a).toNat + 2 * (i.testBit b).toNat := by
  rw [Nat.toNat_testBit, Nat.toNat_testBit]
  rfl

/-- A Hadamard gate where only the amplitude with bit `x` at the qubit is not zero. -/
lemma act_hadamard {x : Bool} (h : amp (patch [a] i (!x).toNat) = 0) :
    act [a] (Quad.hadamard.single.value v) amp i =
      real (if i.testBit a && x then -1 * Scalar.invSqrtTwo else 1 * Scalar.invSqrtTwo) *
        amp (patch [a] i x.toNat) := by
  have hx : x.toNat < 2 ^ [a].length := x.toNat_lt
  have hrow : (i.testBit a).toNat < 2 ^ 1 := Bool.toNat_lt _
  rw [act_single hx, gather_single, Quad.single, value_ofFn hrow x.toNat_lt]
  · cases i.testBit a <;> cases x <;> rfl
  · intro c hc hne
    have hother : c = (!x).toNat := by
      change c < 2 at hc
      cases x
      · exact (show c = 1 by simp at hne; omega)
      · exact (show c = 0 by simp at hne; omega)
    rw [hother, h, mul_zero]

lemma value_controlledPhase (x : α) {r c : Nat} (hr : r < 2 ^ 2) (hc : c < 2 ^ 2) :
    (Quad.phase (.constant x)).controlled.value v r c =
      if r = c then (if r = 3 then polar 1 x else 1) else 0 := by
  have hphase : (Quad.expiEntry (.constant x)).value v = polar 1 x := by
    rw [Quad.value_expiEntry]
    simp [Angle.value, Angle.constant]
  rw [Quad.value_controlled _ v hr hc]
  interval_cases r <;> interval_cases c <;>
    simp [Quad.entry, Quad.phase, hphase, Entry.value_one, Entry.value_zero]

/-- A controlled phase multiplies where both bits are set. -/
lemma act_controlledPhase (hne : a ≠ b) (x : α) :
    act [a, b] ((Quad.phase (.constant x)).controlled.value v) amp i =
      (if i.testBit a && i.testBit b then polar 1 x else 1) * amp i := by
  have hn : [a, b].Nodup := by simpa using hne
  rw [act_diagonal hn fun r c hr hc => value_controlledPhase v x hr hc, gather_pair]
  cases i.testBit a <;> cases i.testBit b <;> rfl

/-- An index with two bits exchanged. -/
def exchange (a b : Qubit) (i : Nat) : Nat :=
  patch [a, b] i (StandardGate.swapBits (gather [a, b] i) 0 1)

lemma testBit_exchange (hne : a ≠ b) (k : Nat) : (exchange a b i).testBit k =
    i.testBit (if k = a then b else if k = b then a else k) := by
  have hn : [a, b].Nodup := by simpa using hne
  have hfirst : ∀ x y : Bool,
      (StandardGate.swapBits (x.toNat + 2 * y.toNat) 0 1).testBit 0 = y := by
    decide
  have hsecond : ∀ x y : Bool,
      (StandardGate.swapBits (x.toNat + 2 * y.toNat) 0 1).testBit 1 = x := by
    decide
  rw [exchange, gather_pair]
  by_cases hka : k = a
  · rw [if_pos hka, hka, testBit_patch_of_getElem? hn (j := 0) rfl, hfirst]
  · rw [if_neg hka]
    by_cases hkb : k = b
    · rw [if_pos hkb, hkb, testBit_patch_of_getElem? hn (j := 1) rfl, hsecond]
    · rw [if_neg hkb, testBit_patch_of_notMem (by simp [hka, hkb])]

/-- A swap moves every amplitude to the index with the two bits exchanged. -/
lemma act_swap (amp : Nat → Cartesian α) (i : Nat) :
    act [a, b] ((StandardGate.permutation 2 fun i => StandardGate.swapBits i 0 1).value v) amp i =
      amp (exchange a b i) := by
  have hlt : ∀ c, c < 2 ^ 2 → StandardGate.swapBits c 0 1 < 2 ^ 2 := by decide
  have htwice : ∀ c, c < 2 ^ 2 → StandardGate.swapBits (StandardGate.swapBits c 0 1) 0 1 = c := by
    decide
  apply act_involution (f := fun i => StandardGate.swapBits i 0 1)
  case hlt => exact hlt
  case hf => exact htwice
  case hm =>
    intro r c hr hc
    rw [StandardGate.permutation, value_ofFn (k := 2) hr hc]
    split
    · exact Entry.value_one v
    · exact Entry.value_zero v

end Gates
end GateFusion
