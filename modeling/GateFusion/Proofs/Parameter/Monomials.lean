import GateFusion.Proofs.Parameter.Exponents

/-!
# Monomials

Polynomials monomial by monomial. Sums and multiples have no products of atoms but those of their
operands, and products have folded products. So well-formed products stay well formed, the largest
exponent of a product is at most the sum of those of the factors, and exponents are positive as long
as they add up to something that fits a word.
-/

namespace GateFusion

namespace Factors
variable {α : Type} [Scalar α]

instance [Std.TransCmp (Scalar.totalCmp (α := α))] : Std.TransCmp (cmp (α := α)) :=
  inferInstanceAs (Std.TransCmp (OrderedMap.compareBy Atom.cmp compare))

instance [Std.LawfulEqCmp (Scalar.totalCmp (α := α))] : Std.LawfulEqCmp (cmp (α := α)) :=
  inferInstanceAs (Std.LawfulEqCmp (OrderedMap.compareBy Atom.cmp compare))

end Factors

namespace Polynomial
variable {α : Type}

/-- Every product of atoms has the property. -/
def Each (P : Factors α → Prop) (p : Polynomial α) : Prop := ∀ t ∈ p.terms, P t.1

/-- The largest exponent. -/
def degree (p : Polynomial α) : Nat := largest (p.terms.map fun t => t.1.degree)

lemma degree_le_iff {p : Polynomial α} {d : Nat} : p.degree ≤ d ↔ p.Each (·.degree ≤ d) := by
  rw [degree, largest_le_iff, List.forall_mem_map]
  rfl

lemma each_degree_le (p : Polynomial α) : p.Each (·.degree ≤ p.degree) := degree_le_iff.mp le_rfl

variable [Scalar α]

/-- The polynomials that the operations build, over whatever angles, with a bound on how many equal
atoms have been multiplied. -/
inductive Built : Nat → Polynomial α → Prop
  | zero : Built 0 .zero
  | constant (c : Cartesian α) : Built 0 (.constant c)
  | cos (a : Angle α) : Built 1 (.cos a)
  | sin (a : Angle α) : Built 1 (.sin a)
  | expi (a : Angle α) : Built 1 (.expi a)
  | add {d e : Nat} {p q : Polynomial α} : Built d p → Built e q → Built (max d e) (p.add q)
  | mul {d e : Nat} {p q : Polynomial α} : Built d p → Built e q → Built (d + e) (p.mul q)
  | scale {d : Nat} {p : Polynomial α} (c : Cartesian α) : Built d p → Built d (p.scale c)

/-- Every product of atoms is well formed. -/
def WellFormed (p : Polynomial α) : Prop := p.Each Factors.WellFormed

/-- No exponent is zero. -/
def Positive (p : Polynomial α) : Prop := p.Each Factors.Positive

section Accumulate
variable {p : Polynomial α} {f : Factors α} {c : Cartesian α}

/-- Adding a monomial inserts it or adds to a coefficient; at most zeros are dropped. -/
lemma accumulate_cases (p : Polynomial α) (f : Factors α) (c : Cartesian α) :
    ((c == 0) = true ∧ p.accumulate f c = p) ∨ ∃ keep : Factors α × Cartesian α → Bool,
      (∀ t, keep t = false → (t.2 == 0) = true) ∧ (p.accumulate f c).terms =
        (OrderedMap.upsert Factors.cmp f (fun old => old.getD 0 + c) p.terms).filter keep := by
  rw [accumulate]
  split
  · rename_i h
    exact Or.inl ⟨h, rfl⟩
  · right
    dsimp only
    split
    · split
      · exact ⟨fun t => !(t.2 == 0), by simp, rfl⟩
      · exact ⟨fun _ => true, by simp, by simp⟩
    · exact ⟨fun _ => true, by simp, by simp⟩

lemma key_accumulate {t : Factors α × Cartesian α} (h : t ∈ (p.accumulate f c).terms) :
    t.1 = f ∨ ∃ x, (t.1, x) ∈ p.terms := by
  rcases accumulate_cases p f c with ⟨-, hacc⟩ | ⟨keep, -, hacc⟩
  · rw [hacc] at h
    exact Or.inr ⟨t.2, h⟩
  · rw [hacc] at h
    rcases OrderedMap.mem_upsert (List.mem_of_mem_filter h) with h | rfl | ⟨x, h, -⟩
    · exact Or.inr ⟨t.2, h⟩
    · exact Or.inl rfl
    · exact Or.inr ⟨x, h⟩

end Accumulate

section Each
variable {P : Factors α → Prop} {p q : Polynomial α}

omit [Scalar α] in
lemma Each.zero : (zero : Polynomial α).Each P := by simp [Each, Polynomial.zero]

lemma Each.accumulate (hp : p.Each P) {f : Factors α} (hf : P f) (c : Cartesian α) :
    (p.accumulate f c).Each P := by
  intro t ht
  rcases key_accumulate ht with h | ⟨x, h⟩
  · exact h ▸ hf
  · exact hp (t.1, x) h

lemma Each.foldl_accumulate {β : Type} {k : β → Factors α} {c : β → Cartesian α} {ts : List β}
    (hk : ∀ t ∈ ts, P (k t)) (hp : p.Each P) :
    (ts.foldl (fun acc t => acc.accumulate (k t) (c t)) p).Each P :=
  List.foldlRecOn ts _ hp fun _ hacc t ht => hacc.accumulate (hk t ht) (c t)

lemma Each.constant (h : P []) (c : Cartesian α) : (constant c).Each P := Each.zero.accumulate h c

lemma Each.ofAtom {t : Atom α} (h : P (Factors.normalize [(t, 1)] 1).1) : (ofAtom t).Each P :=
  Each.zero.accumulate h _

lemma Each.add (hp : p.Each P) (hq : q.Each P) : (p.add q).Each P := foldl_accumulate hq hp

lemma Each.scale (hp : p.Each P) (c : Cartesian α) : (p.scale c).Each P :=
  foldl_accumulate hp .zero

/-- Products of monomials are folded before they are collected. -/
lemma each_mul (h : ∀ s ∈ p.terms, ∀ t ∈ q.terms, ∀ c, P (Factors.normalize (s.1.mul t.1) c).1) :
    (p.mul q).Each P := by
  refine List.foldlRecOn p.terms _ (motive := Each P) .zero fun acc hacc s hs => ?_
  exact Each.foldl_accumulate (fun t ht => h s hs t ht _) hacc

end Each

section Degree
variable {p q : Polynomial α}

lemma degree_add_le (p q : Polynomial α) : (p.add q).degree ≤ max p.degree q.degree := by
  have hp := degree_le_iff.mp (le_max_left p.degree q.degree)
  have hq := degree_le_iff.mp (le_max_right p.degree q.degree)
  exact degree_le_iff.mpr (hp.add hq)

lemma degree_scale_le (p : Polynomial α) (c : Cartesian α) : (p.scale c).degree ≤ p.degree :=
  degree_le_iff.mpr (p.each_degree_le.scale c)

lemma degree_constant (c : Cartesian α) : (constant c).degree = 0 :=
  Nat.le_zero.mp (degree_le_iff.mpr (.constant (Nat.zero_le _) c))

lemma WellFormed.constant (c : Cartesian α) : (constant c).WellFormed := Each.constant .nil c

variable [Std.TransCmp (Scalar.totalCmp (α := α))]

lemma WellFormed.ofAtom (t : Atom α) : (ofAtom t).WellFormed :=
  Each.ofAtom (Factors.wellFormed_normalize _ _)

lemma WellFormed.mul (p q : Polynomial α) : (p.mul q).WellFormed :=
  each_mul fun _ _ _ _ _ => Factors.wellFormed_normalize _ _

lemma degree_ofAtom_le (t : Atom α) : (ofAtom t).degree ≤ 1 :=
  degree_le_iff.mpr (Each.ofAtom (Factors.degree_normalize_le (.singleton t) 1))

/-- Exponents add up to no more than the sum of the largest. -/
lemma degree_mul_le (hp : p.WellFormed) (hq : q.WellFormed) :
    (p.mul q).degree ≤ p.degree + q.degree := by
  refine degree_le_iff.mpr (each_mul fun s hs t ht c => ?_)
  have hfold := Factors.degree_normalize_le ((hp s hs).mul (hq t ht)) c
  have hmul : (s.1.mul t.1).degree ≤ _ := Factors.degree_mul_le (hq t ht).sorted
  have hsp : s.1.degree ≤ _ := p.each_degree_le s hs
  have htq : t.1.degree ≤ _ := q.each_degree_le t ht
  omega

/-- Functions of two kinds have no powers in their product. -/
lemma degree_mul_ofAtom_le {t u : Atom α} (h : t.kind ≠ u.kind) :
    ((ofAtom t).mul (ofAtom u)).degree ≤ 1 := by
  have hkind : ∀ t : Atom α, (ofAtom t).Each fun f => ∀ s ∈ f, s.1.kind = t.kind := fun t =>
    Each.ofAtom fun s hs => by
      obtain ⟨r, hr, hsame, -⟩ := Factors.mem_normalize hs
      rw [hsame, List.mem_singleton.mp hr]
  refine degree_le_iff.mpr (each_mul fun f hf g hg c => ?_)
  have hwf := WellFormed.ofAtom t f hf
  have hwg := WellFormed.ofAtom u g hg
  have hmul := Factors.degree_mul_le_max (f := f.1) hwg.sorted fun s hs r hr => by
    rw [hkind t f hf s hs, hkind u g hg r hr]
    exact h
  have hft := degree_le_iff.mp (degree_ofAtom_le t) f hf
  have hgu := degree_le_iff.mp (degree_ofAtom_le u) g hg
  exact ((Factors.degree_normalize_le (hwf.mul hwg) c).trans hmul).trans (max_le hft hgu)

lemma Positive.mul (hp : p.Positive) (hq : q.Positive) (hwf : q.WellFormed)
    (hd : p.degree + q.degree < 2 ^ 32) : (p.mul q).Positive := by
  refine each_mul fun s hs t ht c => Factors.Positive.normalize ?_ c
  have hsp : s.1.degree ≤ _ := p.each_degree_le s hs
  have htq : t.1.degree ≤ _ := q.each_degree_le t ht
  exact (hp s hs).mul (hq t ht) (hwf t ht).sorted (by omega)

end Degree

section Built
variable [Std.TransCmp (Scalar.totalCmp (α := α))] {p : Polynomial α} {d : Nat}

/-- Whatever the operations build is well formed. -/
theorem Built.wellFormed (hp : p.Built d) : p.WellFormed := by
  induction hp with
  | zero => exact .zero
  | constant c => exact .constant c
  | cos a | sin a | expi a => exact .ofAtom _
  | add _ _ ihp ihq => exact Each.add ihp ihq
  | mul _ _ _ _ => exact .mul _ _
  | scale c _ ih => exact Each.scale ih c

theorem Built.degree_le (hp : p.Built d) : p.degree ≤ d := by
  induction hp with
  | zero => exact degree_le_iff.mpr .zero
  | constant c => exact (degree_constant c).le
  | cos a | sin a | expi a => exact degree_ofAtom_le _
  | add _ _ ihp ihq => exact (degree_add_le _ _).trans (max_le_max ihp ihq)
  | mul hp hq ihp ihq =>
    exact (degree_mul_le hp.wellFormed hq.wellFormed).trans (Nat.add_le_add ihp ihq)
  | scale c _ ih => exact (degree_scale_le _ c).trans ih

/-- Where fewer equal atoms have been multiplied than words can count, no exponent is zero. -/
theorem Built.positive (hp : p.Built d) (hd : d < 2 ^ 32) : p.Positive := by
  have hnil : Factors.Positive ([] : Factors α) := by simp [Factors.Positive]
  have hatom : ∀ t : Atom α, (ofAtom t).Positive := fun t =>
    Each.ofAtom (Factors.Positive.normalize (by simp [Factors.Positive]) 1)
  induction hp with
  | zero => exact .zero
  | constant c => exact Each.constant hnil c
  | cos a | sin a | expi a => exact hatom _
  | add _ _ ihp ihq => exact Each.add (ihp (by omega)) (ihq (by omega))
  | mul hp hq ihp ihq =>
    have hpd := hp.degree_le
    have hqd := hq.degree_le
    exact (ihp (by omega)).mul (ihq (by omega)) hq.wellFormed (by omega)
  | scale c _ ih => exact Each.scale (ih hd) c

/-- Squared so many times over. -/
def squared (p : Polynomial α) : Nat → Polynomial α
  | 0 => p
  | k + 1 => (p.squared k).mul (p.squared k)

omit [Std.TransCmp (Scalar.totalCmp (α := α))] in
lemma Built.squared (hp : p.Built d) (k : Nat) : (p.squared k).Built (2 ^ k * d) := by
  induction k with
  | zero => rwa [pow_zero, one_mul]
  | succ k ih =>
    have hmul := ih.mul ih
    rwa [← Nat.two_mul, ← Nat.mul_assoc, Nat.mul_comm 2, ← Nat.pow_succ] at hmul

end Built
end Polynomial
end GateFusion
