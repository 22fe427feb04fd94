import GateFusion.Proofs.Parameter.Angle
import GateFusion.Parameter.Polynomial

/-!
# Exponents

The exponents of a product of atoms are 32-bit words that are added without a check. A sum of words
is at most the sum of the numbers, so the largest exponent of a product is at most the sum of those
of its factors; where that sum fits a word nothing wraps around, and exponents stay positive. The
exponent of an exponential never comes near the bound, since folding resets it to one.
-/

namespace GateFusion

/-- The largest of some numbers, or zero. -/
def largest (ns : List Nat) : Nat := ns.foldr max 0

lemma largest_le_iff {ns : List Nat} {d : Nat} : largest ns ≤ d ↔ ∀ n ∈ ns, n ≤ d := by
  induction ns with
  | nil => simp [largest]
  | cons n ns ih =>
    rw [List.forall_mem_cons, ← ih]
    exact max_le_iff

section Words
variable (k l : UInt32)

lemma toNat_add_le : (k + l).toNat ≤ k.toNat + l.toNat := by
  rw [UInt32.toNat_add]
  exact Nat.mod_le _ _

variable {k l} in
lemma toNat_add_of_lt (h : k.toNat + l.toNat < 2 ^ 32) : (k + l).toNat = k.toNat + l.toNat := by
  rw [UInt32.toNat_add, Nat.mod_eq_of_lt h]

end Words

namespace Atom
variable {α : Type} [Scalar α]

instance [Std.TransCmp (Scalar.totalCmp (α := α))] : Std.TransCmp (cmp (α := α)) := by
  have hkind : Std.TransCmp fun a b : Atom α => compare a.kind b.kind :=
    OrderedMap.transCmp_comap kind
  have hangle : Std.TransCmp fun a b : Atom α => a.angle.cmp b.angle :=
    OrderedMap.transCmp_comap angle
  exact inferInstanceAs (Std.TransCmp (compareLex
    (fun a b : Atom α => compare a.kind b.kind) fun a b => a.angle.cmp b.angle))

instance [Std.LawfulEqCmp (Scalar.totalCmp (α := α))] : Std.LawfulEqCmp (cmp (α := α)) where
  compare_self := by simp [cmp]
  eq_of_compare {a b} h := by
    rw [cmp, Ordering.then_eq_eq] at h
    have hkind := Std.LawfulEqOrd.eq_of_compare h.1
    have hangle := Std.LawfulEqCmp.eq_of_compare h.2
    cases a <;> cases b <;> simp_all [kind, angle]

/-- Atoms that compare equal are the same function. -/
lemma kind_of_cmp {t u : Atom α} (h : t.cmp u = .eq) : t.kind = u.kind := by
  rw [cmp, Ordering.then_eq_eq] at h
  exact Std.LawfulEqOrd.eq_of_compare h.1

end Atom

namespace Factors
variable {α : Type} [Scalar α] {f g : Factors α} {d : Nat}

/-- The largest exponent. -/
def degree (f : Factors α) : Nat := largest (f.map fun t => t.2.toNat)

/-- No exponent is zero. -/
def Positive (f : Factors α) : Prop := ∀ t ∈ f, 0 < t.2.toNat

/-- The atoms ascend, and exponentials occur once. Every product that operations build is like
that. -/
structure WellFormed (f : Factors α) : Prop where
  sorted : OrderedMap.Sorted Atom.cmp f
  phase : ∀ t ∈ f, t.1.kind = 2 → t.2 = 1

/-- The atoms ascend, and exponentials are there to be folded: what a product is like before. -/
structure Foldable (f : Factors α) : Prop where
  sorted : OrderedMap.Sorted Atom.cmp f
  phase : ∀ t ∈ f, t.1.kind = 2 → 0 < t.2.toNat

omit [Scalar α] in
lemma degree_le_iff : f.degree ≤ d ↔ ∀ t ∈ f, t.2.toNat ≤ d := by
  rw [degree, largest_le_iff, List.forall_mem_map]

omit [Scalar α] in
lemma le_degree {t : Atom α × UInt32} (ht : t ∈ f) : t.2.toNat ≤ f.degree :=
  degree_le_iff.mp le_rfl t ht

lemma WellFormed.nil : WellFormed ([] : Factors α) := ⟨.nil, by simp⟩

lemma Foldable.singleton (t : Atom α) : Foldable [(t, 1)] :=
  ⟨List.pairwise_singleton _ _, by simp⟩

section Multiply

/-- The product with a power of an atom. -/
def raise (f : Factors α) (t : Atom α × UInt32) : Factors α :=
  OrderedMap.upsert Atom.cmp t.1 (fun e => e.getD 0 + t.2) f

/-- Raising an atom that may be there already changes nothing else. -/
lemma mem_raise {t r : Atom α × UInt32} (h : r ∈ f.raise t) :
    r ∈ f ∨ r = t ∨ ∃ k, (r.1, k) ∈ f ∧ Atom.cmp t.1 r.1 = .eq ∧ r.2 = k + t.2 := by
  rcases OrderedMap.mem_upsert h with h | rfl | ⟨k, hk, hcmp, hr⟩
  · exact Or.inl h
  · refine Or.inr (Or.inl (Prod.ext rfl ?_))
    exact UInt32.zero_add t.2
  · exact Or.inr (Or.inr ⟨k, hk, hcmp, hr⟩)

variable [Std.TransCmp (Scalar.totalCmp (α := α))]

/-- Multiplying atom by atom. The second factor has every atom once, so when an atom is raised its
exponent is still that of the first factor. -/
theorem mul_induction {P : Factors α → Factors α → Prop} (hg : OrderedMap.Sorted Atom.cmp g)
    (hstart : P f g) (hstep : ∀ (acc rest : Factors α) (t : Atom α × UInt32), t ∈ g →
      (∀ r ∈ acc, Atom.cmp t.1 r.1 = .eq → r ∈ f) → P acc (t :: rest) → P (acc.raise t) rest) :
    P (f.mul g) [] := by
  have hrun : ∀ (rest acc : Factors α), (∀ t ∈ rest, t ∈ g) →
      rest.Pairwise (fun s t => Atom.cmp t.1 s.1 ≠ .eq) →
      (∀ t ∈ rest, ∀ r ∈ acc, Atom.cmp t.1 r.1 = .eq → r ∈ f) →
      P acc rest → P (rest.foldl raise acc) [] := by
    intro rest
    induction rest with
    | nil => exact fun acc _ _ _ h => h
    | cons t rest ih =>
      intro acc hmem hne hfresh h
      obtain ⟨hne, hrest⟩ := List.pairwise_cons.mp hne
      refine ih (acc.raise t) (fun u hu => hmem u (by simp [hu])) hrest (fun u hu r hr heq => ?_)
        (hstep acc rest t (hmem t (by simp)) (hfresh t (by simp)) h)
      have hold := hfresh u (by simp [hu])
      rcases mem_raise hr with hr | rfl | ⟨k, -, hcmp, -⟩
      · exact hold r hr heq
      · exact absurd heq (hne u hu)
      · exact absurd (Std.TransCmp.eq_trans heq (Std.OrientedCmp.eq_symm hcmp)) (hne u hu)
  exact hrun g f (fun t ht => ht) hg.pairwise_ne (fun t _ r hr _ => hr) hstart

lemma sorted_mul (hf : OrderedMap.Sorted Atom.cmp f) (g : Factors α) :
    OrderedMap.Sorted Atom.cmp (f.mul g) :=
  List.foldlRecOn g _ hf fun _ hacc t _ => hacc.upsert t.1 _

/-- Whether or not a sum of exponents wraps around, it is at most the sum of the largest. -/
lemma degree_mul_le (hg : OrderedMap.Sorted Atom.cmp g) :
    (f.mul g).degree ≤ f.degree + g.degree := by
  refine mul_induction (P := fun acc _ => acc.degree ≤ f.degree + g.degree) hg
    (Nat.le_add_right _ _) fun acc _ t ht hold hacc => degree_le_iff.mpr fun r hr => ?_
  have htg := le_degree ht
  rcases mem_raise hr with hr | rfl | ⟨k, hk, hcmp, hr⟩
  · exact (le_degree hr).trans hacc
  · exact htg.trans (Nat.le_add_left _ _)
  · have hkf := le_degree (hold (r.1, k) hk hcmp)
    have hsum := toNat_add_le k t.2
    rw [hr]
    dsimp only at hkf
    omega

/-- Where the factors have no atom in common no exponents are added. -/
lemma degree_mul_le_max (hg : OrderedMap.Sorted Atom.cmp g)
    (hapart : ∀ s ∈ f, ∀ t ∈ g, s.1.kind ≠ t.1.kind) :
    (f.mul g).degree ≤ max f.degree g.degree := by
  refine mul_induction (P := fun acc _ => acc.degree ≤ max f.degree g.degree) hg
    (le_max_left _ _) fun acc _ t ht hold hacc => degree_le_iff.mpr fun r hr => ?_
  rcases mem_raise hr with hr | rfl | ⟨k, hk, hcmp, -⟩
  · exact (le_degree hr).trans hacc
  · exact (le_degree ht).trans (le_max_right _ _)
  · exact absurd (Atom.kind_of_cmp hcmp).symm (hapart (r.1, k) (hold (r.1, k) hk hcmp) t ht)

/-- Sums that fit a word are not zero. -/
lemma Positive.mul (hf : f.Positive) (hg : g.Positive) (hsorted : OrderedMap.Sorted Atom.cmp g)
    (hd : f.degree + g.degree < 2 ^ 32) : (f.mul g).Positive := by
  refine mul_induction (P := fun acc _ => acc.Positive) hsorted hf fun acc _ t ht hold hacc => ?_
  have htpos := hg t ht
  have htg := le_degree ht
  intro r hr
  rcases mem_raise hr with hr | rfl | ⟨k, hk, hcmp, hr⟩
  · exact hacc r hr
  · exact htpos
  · have hkf := le_degree (hold (r.1, k) hk hcmp)
    dsimp only at hkf
    rw [hr, toNat_add_of_lt (by omega)]
    omega

/-- An exponential occurs at most twice in a product of two products. -/
lemma WellFormed.mul (hf : f.WellFormed) (hg : g.WellFormed) : (f.mul g).Foldable := by
  refine ⟨sorted_mul hf.sorted g, ?_⟩
  refine mul_induction (P := fun acc _ => ∀ r ∈ acc, r.1.kind = 2 → 0 < r.2.toNat) hg.sorted
    (fun r hr hkind => ?_) fun acc _ t ht hold hacc r hr hkind => ?_
  · rw [hf.phase r hr hkind]
    exact Nat.one_pos
  · rcases mem_raise hr with hr | rfl | ⟨k, hk, hcmp, hr⟩
    · exact hacc r hr hkind
    · rw [hg.phase r ht hkind]
      exact Nat.one_pos
    · have hkone := hf.phase (r.1, k) (hold (r.1, k) hk hcmp) hkind
      have htone := hg.phase t ht ((Atom.kind_of_cmp hcmp).trans hkind)
      dsimp only at hkone
      rw [hr, hkone, htone]
      exact Nat.two_pos

end Multiply

section Folding

lemma Folding.step_expi (s : Folding α) (a : Angle α) (k : UInt32) : s.step (.expi a, k) =
    { s with phase := some (match s.phase with
        | some acc => acc.add (a.scale (k.toNat : α))
        | none => a.scale (k.toNat : α)) } := rfl

lemma Folding.step_of_kind (s : Folding α) {t : Atom α} (ht : t.kind ≠ 2) (k : UInt32) :
    s.step (t, k) = if t.angle.isConstant then
      { s with coefficient := s.coefficient * (t.valueAt t.angle.constantPart).pow k.toNat }
    else { s with rest := OrderedMap.insert Atom.cmp t k s.rest } := by
  cases t with
  | cos a => rfl
  | sin a => rfl
  | expi a => exact absurd rfl ht

omit [Scalar α] in
lemma eq_expi_of_kind {t : Atom α} (h : t.kind = 2) : t = .expi t.angle := by
  cases t with
  | cos a => simp [Atom.kind] at h
  | sin a => simp [Atom.kind] at h
  | expi a => rfl

/-- An atom that folding keeps is the folded one, with its exponent, or was kept before. -/
lemma Folding.mem_step {s : Folding α} {t : Atom α} {k : UInt32} {r : Atom α × UInt32}
    (h : r ∈ (s.step (t, k)).rest) :
    r ∈ s.rest ∨ t.kind ≠ 2 ∧ t.angle.isConstant = false ∧ r.2 = k ∧ r.1.kind = t.kind ∧
      (r.1 = t ∨ ∃ e, (r.1, e) ∈ s.rest) := by
  by_cases hkind : t.kind = 2
  · rw [eq_expi_of_kind hkind, step_expi] at h
    exact Or.inl h
  · rw [step_of_kind s hkind] at h
    split at h
    · exact Or.inl h
    · rename_i hconst
      rw [Bool.not_eq_true] at hconst
      rcases OrderedMap.mem_upsert h with h | rfl | ⟨e, h, hcmp, he⟩
      · exact Or.inl h
      · exact Or.inr ⟨hkind, hconst, rfl, rfl, Or.inl rfl⟩
      · exact Or.inr ⟨hkind, hconst, he, (Atom.kind_of_cmp hcmp).symm, Or.inr ⟨e, h⟩⟩

lemma Folding.isSome_phase_step {s : Folding α} {t : Atom α} {k : UInt32}
    (h : (s.step (t, k)).phase ≠ none) : s.phase ≠ none ∨ t.kind = 2 := by
  by_cases hkind : t.kind = 2
  · exact Or.inr hkind
  · rw [step_of_kind s hkind] at h
    split at h
    · exact Or.inl h
    · exact Or.inl h

variable [Std.TransCmp (Scalar.totalCmp (α := α))]

lemma Folding.sorted_step {s : Folding α} (hs : OrderedMap.Sorted Atom.cmp s.rest)
    (t : Atom α × UInt32) : OrderedMap.Sorted Atom.cmp (s.step t).rest := by
  obtain ⟨t, k⟩ := t
  by_cases hkind : t.kind = 2
  · rw [eq_expi_of_kind hkind, step_expi]
    exact hs
  · rw [step_of_kind s hkind]
    split
    · exact hs
    · exact hs.insert t k

/-- What has been folded of a product: atoms that are kept ascend, have exponents of the product and
are no exponentials, and a phase stands for exponentials of the product. -/
structure Folding.Of (f : Factors α) (s : Folding α) : Prop where
  sorted : OrderedMap.Sorted Atom.cmp s.rest
  kind : ∀ r ∈ s.rest, r.1.kind ≠ 2
  exponent : ∀ r ∈ s.rest, ∃ t ∈ f, r.2 = t.2 ∧ r.1.kind = t.1.kind
  phase : s.phase ≠ none → ∃ t ∈ f, t.1.kind = 2

lemma Folding.Of.step {s : Folding α} (hs : s.Of f) {t : Atom α × UInt32} (ht : t ∈ f) :
    (s.step t).Of f := by
  refine ⟨sorted_step hs.sorted t, fun r hr => ?_, fun r hr => ?_, fun h => ?_⟩
  · rcases mem_step hr with hr | ⟨hkind, -, -, hsame, -⟩
    · exact hs.kind r hr
    · exact hsame ▸ hkind
  · rcases mem_step hr with hr | ⟨-, -, heq, hsame, -⟩
    · exact hs.exponent r hr
    · exact ⟨t, ht, heq, hsame⟩
  · rcases isSome_phase_step h with h | h
    · exact hs.phase h
    · exact ⟨t, ht, h⟩

lemma folded (f : Factors α) (c : Cartesian α) : (f.foldl Folding.step ⟨[], none, c⟩).Of f := by
  have hstart : (⟨[], none, c⟩ : Folding α).Of f := ⟨.nil, by simp, by simp, by simp⟩
  exact List.foldlRecOn f _ hstart fun s hs t ht => hs.step ht

/-- Folding leaves exponents of the product, and exponentials only once. -/
lemma mem_normalize {c : Cartesian α} {r : Atom α × UInt32} (h : r ∈ (normalize f c).1) :
    ∃ t ∈ f, r.1.kind = t.1.kind ∧ (if r.1.kind = 2 then r.2 = 1 else r.2 = t.2) := by
  have hfold := folded f c
  rw [normalize] at h
  generalize f.foldl Folding.step ⟨[], none, c⟩ = s at hfold h
  have hkept : r ∈ s.rest →
      ∃ t ∈ f, r.1.kind = t.1.kind ∧ (if r.1.kind = 2 then r.2 = 1 else r.2 = t.2) := by
    intro hr
    obtain ⟨t, ht, heq, hsame⟩ := hfold.exponent r hr
    exact ⟨t, ht, hsame, by rwa [if_neg (hfold.kind r hr)]⟩
  cases hphase : s.phase with
  | none =>
    rw [hphase] at h
    exact hkept h
  | some a =>
    obtain ⟨t, ht, hkind⟩ := hfold.phase (by simp [hphase])
    rw [hphase] at h
    dsimp only at h
    split at h
    · exact hkept h
    · rcases OrderedMap.mem_upsert h with h | rfl | ⟨e, -, hcmp, he⟩
      · exact hkept h
      · exact ⟨t, ht, hkind.symm, rfl⟩
      · have hr : r.1.kind = 2 := (Atom.kind_of_cmp hcmp).symm
        exact ⟨t, ht, hr.trans hkind.symm, by rwa [if_pos hr]⟩

lemma sorted_normalize (f : Factors α) (c : Cartesian α) :
    OrderedMap.Sorted Atom.cmp (normalize f c).1 := by
  have hsorted := (folded f c).sorted
  rw [normalize]
  generalize f.foldl Folding.step ⟨[], none, c⟩ = s at hsorted
  cases s.phase with
  | none => exact hsorted
  | some a =>
    dsimp only
    split
    · exact hsorted
    · exact hsorted.insert _ _

/-- Folding makes any product well formed. -/
lemma wellFormed_normalize (f : Factors α) (c : Cartesian α) : (normalize f c).1.WellFormed := by
  refine ⟨sorted_normalize f c, fun r hr hkind => ?_⟩
  obtain ⟨t, -, -, h⟩ := mem_normalize hr
  rwa [if_pos hkind] at h

lemma degree_normalize_le (hf : f.Foldable) (c : Cartesian α) :
    (normalize f c).1.degree ≤ f.degree := by
  refine degree_le_iff.mpr fun r hr => ?_
  obtain ⟨t, ht, hsame, h⟩ := mem_normalize hr
  split at h
  · rename_i hkind
    rw [h]
    exact (hf.phase t ht (hsame.symm.trans hkind)).trans_le (le_degree ht)
  · exact h ▸ le_degree ht

lemma Positive.normalize (hf : f.Positive) (c : Cartesian α) : (normalize f c).1.Positive := by
  intro r hr
  obtain ⟨t, ht, -, h⟩ := mem_normalize hr
  split at h
  · exact h ▸ Nat.one_pos
  · exact h ▸ hf t ht

end Folding
end Factors
end GateFusion
