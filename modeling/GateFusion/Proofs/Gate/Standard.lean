import GateFusion.Proofs.Gate.Compose
import GateFusion.Proofs.Matrix.Reduced

/-!
# Constructed gates

Gates with an explicit matrix are well formed: their qubits are distinct and their matrices have the
right size. The matrices of the standard library have reduced entries without powers besides, so
that with exact numbers these gates are regular.
-/

namespace GateFusion
variable {α : Type} [Scalar α]

/-- Reduced entries without powers. -/
structure Entry.Elementary (e : Entry α) : Prop where
  reduced : e.Reduced
  degree_le : e.degree ≤ 1

namespace Entry.Elementary

lemma numeric (c : Cartesian α) : (numeric c : Entry α).Elementary := ⟨.numeric c, Nat.zero_le 1⟩

lemma zero : (0 : Entry α).Elementary := numeric 0

lemma one : (1 : Entry α).Elementary := numeric 1

lemma ofPolynomial {d : Nat} {p : Polynomial α} (hp : p.Built d) (hd : p.degree ≤ 1) :
    (ofPolynomial p).Elementary :=
  ⟨.ofPolynomial hp, (degree_ofPolynomial_le p).trans hd⟩

end Entry.Elementary

namespace Quad

/-- All four entries are elementary. -/
structure Elementary (m : Quad α) : Prop where
  e00 : m.e00.Elementary
  e01 : m.e01.Elementary
  e10 : m.e10.Elementary
  e11 : m.e11.Elementary

lemma Elementary.entry {m : Quad α} (hm : m.Elementary) (r c : Nat) : (m.entry r c).Elementary := by
  unfold Quad.entry
  split
  · split
    · exact hm.e00
    · exact hm.e01
  · split
    · exact hm.e10
    · exact hm.e11

lemma Elementary.numeric (a b c d : Cartesian α) : (numeric a b c d).Elementary :=
  ⟨.numeric a, .numeric b, .numeric c, .numeric d⟩

section Functions
variable [Std.TransCmp (Scalar.totalCmp (α := α))]

lemma elementary_ofAtom {d : Nat} {t : Atom α} (ht : (Polynomial.ofAtom t).Built d) :
    (Entry.ofPolynomial (.ofAtom t)).Elementary :=
  .ofPolynomial ht (Polynomial.degree_ofAtom_le t)

lemma elementary_scaled {d : Nat} {t : Atom α} (ht : (Polynomial.ofAtom t).Built d)
    (c : Cartesian α) : (Entry.ofPolynomial ((Polynomial.ofAtom t).scale c)).Elementary :=
  .ofPolynomial (.scale c ht)
    ((Polynomial.degree_scale_le _ c).trans (Polynomial.degree_ofAtom_le t))

lemma elementary_cosEntry (a : Angle α) (c : Cartesian α) : (cosEntry a c).Elementary :=
  elementary_scaled (.cos a) c

lemma elementary_sinEntry (a : Angle α) (c : Cartesian α) : (sinEntry a c).Elementary :=
  elementary_scaled (.sin a) c

lemma elementary_expiEntry (a : Angle α) : (expiEntry a).Elementary := elementary_ofAtom (.expi a)

lemma Elementary.rotateX (a : Angle α) : (rotateX a).Elementary :=
  ⟨elementary_cosEntry _ _, elementary_sinEntry _ _, elementary_sinEntry _ _,
    elementary_cosEntry _ _⟩

lemma Elementary.rotateY (a : Angle α) : (rotateY a).Elementary :=
  ⟨elementary_cosEntry _ _, elementary_sinEntry _ _, elementary_sinEntry _ _,
    elementary_cosEntry _ _⟩

lemma Elementary.rotateZ (a : Angle α) : (rotateZ a).Elementary :=
  ⟨elementary_expiEntry _, .zero, .zero, elementary_expiEntry _⟩

lemma Elementary.phase (a : Angle α) : (phase a).Elementary :=
  ⟨.one, .zero, .zero, elementary_expiEntry _⟩

lemma degree_expi_mul_le {t : Atom α} (ht : t.kind < 2) (a : Angle α) :
    ((Polynomial.expi a).mul (.ofAtom t)).degree ≤ 1 :=
  Polynomial.degree_mul_ofAtom_le (t := .expi a) ht.ne'

lemma Elementary.universal (a b c : Angle α) : (universal a b c).Elementary :=
  ⟨elementary_ofAtom (.cos _),
    .ofPolynomial (.scale _ (.mul (.expi _) (.sin _)))
      ((Polynomial.degree_scale_le _ _).trans (degree_expi_mul_le (t := .sin _) Nat.one_lt_two _)),
    .ofPolynomial (.mul (.expi _) (.sin _)) (degree_expi_mul_le (t := .sin _) Nat.one_lt_two _),
    .ofPolynomial (.mul (.expi _) (.cos _)) (degree_expi_mul_le (t := .cos _) Nat.two_pos _)⟩

end Functions
end Quad

/-- A matrix of a given number of qubits, of the right size and with elementary entries. -/
structure GateMatrix.Fits (m : GateMatrix α) (k : Nat) : Prop where
  numQubits : m.numQubits = k
  wellFormed : m.WellFormed
  elementary : ∀ e ∈ m.entries.toList, e.Elementary

lemma GateMatrix.Fits.degree_le {m : GateMatrix α} {k : Nat} (hm : m.Fits k) : m.degree ≤ 1 :=
  degree_le_iff.mpr fun e he => (hm.elementary e he).degree_le

lemma GateMatrix.fits_ofFn {k : Nat} {f : Nat → Nat → Entry α} (h : ∀ r c, (f r c).Elementary) :
    (ofFn k f).Fits k :=
  ⟨rfl, wellFormed_ofFn, forall_mem_ofFn fun r c _ _ => h r c⟩

namespace StandardGate

lemma fits_single {m : Quad α} (hm : m.Elementary) : m.single.Fits 1 :=
  GateMatrix.fits_ofFn hm.entry

lemma fits_controlled {m : Quad α} (hm : m.Elementary) : m.controlled.Fits 2 := by
  refine GateMatrix.fits_ofFn fun r c => ?_
  split
  · exact hm.entry _ _
  · split
    · exact .one
    · exact .zero

lemma fits_permutation (k : Nat) (f : Nat → Nat) : (permutation k f : GateMatrix α).Fits k := by
  refine GateMatrix.fits_ofFn fun r c => ?_
  split
  · exact .one
  · exact .zero

variable [Std.TransCmp (Scalar.totalCmp (α := α))]

lemma fits_rotateZZ (a : Angle α) : (rotateZZ a).Fits 2 := by
  unfold rotateZZ
  refine GateMatrix.fits_ofFn fun r c => ?_
  split
  · exact .zero
  · split <;> exact Quad.elementary_expiEntry _

omit [Std.TransCmp (Scalar.totalCmp (α := α))] in
/-- The matrix of a gate with parameters fits if it does for all angles. -/
lemma fits_of_angle {e : Expr α} {k : Nat} {f : Angle α → GateMatrix α} {m : GateMatrix α}
    (hf : ∀ a, (f a).Fits k)
    (h : (angle e >>= fun a => pure (f a) : Except (CircuitError α) (GateMatrix α)) = .ok m) :
    m.Fits k := by
  obtain ⟨a, -, h⟩ := bind_eq_ok.mp h
  exact Except.ok.inj h ▸ hf a

/-- The matrix of a standard gate fits the gate. -/
theorem fits_matrix {g : StandardGate α} {m : GateMatrix α} (h : g.matrix = .ok m) :
    m.Fits g.numQubits := by
  cases g with
  | id | x | y | z | h | s | sdg | t | tdg | sx =>
    obtain rfl := Except.ok.inj h
    exact fits_single (.numeric _ _ _ _)
  | rx e => exact fits_of_angle (fun a => fits_single (.rotateX a)) h
  | ry e => exact fits_of_angle (fun a => fits_single (.rotateY a)) h
  | rz e => exact fits_of_angle (fun a => fits_single (.rotateZ a)) h
  | p e => exact fits_of_angle (fun a => fits_single (.phase a)) h
  | u e₁ e₂ e₃ =>
    obtain ⟨a, -, h⟩ := bind_eq_ok.mp h
    obtain ⟨b, -, h⟩ := bind_eq_ok.mp h
    exact fits_of_angle (fun c => fits_single (.universal a b c)) h
  | cx | cy | cz | ch =>
    obtain rfl := Except.ok.inj h
    exact fits_controlled (.numeric _ _ _ _)
  | swap | ccx | cswap =>
    obtain rfl := Except.ok.inj h
    exact fits_permutation _ _
  | crx e => exact fits_of_angle (fun a => fits_controlled (.rotateX a)) h
  | cry e => exact fits_of_angle (fun a => fits_controlled (.rotateY a)) h
  | crz e => exact fits_of_angle (fun a => fits_controlled (.rotateZ a)) h
  | cp e => exact fits_of_angle (fun a => fits_controlled (.phase a)) h
  | rzz e => exact fits_of_angle fits_rotateZZ h

end StandardGate

namespace Gate

omit [Scalar α] in
lemma nodup_of_firstDuplicate? {qs seen : List Qubit} (h : firstDuplicate? seen qs = none) :
    qs.Nodup ∧ ∀ q ∈ qs, q ∉ seen := by
  induction qs generalizing seen with
  | nil => simp
  | cons q qs ih =>
    rw [firstDuplicate?] at h
    split at h
    · simp at h
    · rename_i hnot
      obtain ⟨hn, hseen⟩ := ih h
      simp only [List.mem_cons, not_or] at hseen
      refine ⟨List.nodup_cons.mpr ⟨fun hq => (hseen q hq).1 rfl, hn⟩, fun r hr => ?_⟩
      rcases List.mem_cons.mp hr with rfl | hr
      · simpa using hnot
      · exact (hseen r hr).2

omit [Scalar α] in
/-- A gate with an explicit matrix is well formed if the matrix is. -/
theorem wellFormed_of_ofMatrix {name : String} {qs : List Qubit} {m : GateMatrix α} {gate : Gate α}
    (hm : m.WellFormed) (h : ofMatrix name qs m = .ok gate) :
    gate.WellFormed ∧ gate.matrix = m := by
  unfold ofMatrix at h
  obtain ⟨_, hwidth, h⟩ := bind_eq_ok.mp h
  split at h
  · simp at h
  · rename_i hdup
    split at h
    · rename_i hsize
      obtain rfl := Except.ok.inj h
      exact ⟨⟨(nodup_of_firstDuplicate? hdup).1, checkIndexWidth_eq_ok.mp hwidth, hsize, hm⟩, rfl⟩
    · simp at h

section Standard
variable [Std.TransCmp (Scalar.totalCmp (α := α))] {g : StandardGate α} {qs : List Qubit}
  {gate : Gate α}

lemma fits_of_standard (h : standard g qs = .ok gate) :
    gate.WellFormed ∧ gate.matrix.Fits g.numQubits := by
  unfold standard at h
  split at h
  · obtain ⟨m, hm, h⟩ := bind_eq_ok.mp h
    have hfits := StandardGate.fits_matrix hm
    obtain ⟨hwf, hmatrix⟩ := wellFormed_of_ofMatrix hfits.wellFormed h
    exact ⟨hwf, hmatrix ▸ hfits⟩
  · simp at h

/-- Gates of the standard library are well formed and have reduced entries. -/
theorem reduced_of_standard (h : standard g qs = .ok gate) :
    gate.WellFormed ∧ gate.matrix.Reduced := by
  obtain ⟨hwf, hfits⟩ := fits_of_standard h
  exact ⟨hwf, fun e he => (hfits.elementary e he).reduced⟩

/-- No entry of a standard gate has a power. -/
theorem degree_le_one_of_standard (h : standard g qs = .ok gate) : gate.degree ≤ 1 :=
  (fits_of_standard h).2.degree_le

end Standard

/-- With exact numbers gates of the standard library are regular. -/
theorem regular_of_standard {α : Type} [Exact α] {g : StandardGate α} {qs : List Qubit}
    {gate : Gate α} (h : standard g qs = .ok gate) : gate.Regular := by
  obtain ⟨hwf, hreduced⟩ := reduced_of_standard h
  exact ⟨hwf, fun e he => (hreduced e he).built.wellFormed⟩

end Gate
end GateFusion
