import GateFusion.Proofs.Parameter.Polynomial

/-!
# The normal form of polynomials

Whatever operations build a polynomial, no coefficient is zero, every atom has a symbol, and a
product has at most one exponential, which occurs once. So a polynomial is a number exactly if it
mentions no symbol. None of this asks for exact numbers: only comparisons decide what is merged,
folded or dropped. An exponent that wraps around to zero does not matter here: its atom stays.
-/

namespace GateFusion
variable {α : Type} [Scalar α]

omit [Scalar α] in
lemma Angle.isConstant_iff {a : Angle α} : a.isConstant = true ↔ a.symbols = [] := by
  rw [isConstant, List.isEmpty_iff, symbols, List.map_eq_nil_iff]

namespace Factors

/-- The exponentials of a product. -/
def exponentials (f : Factors α) : Factors α := f.filter fun t => t.1.kind == 2

/-- No atom is a number, and there is at most one exponential, with exponent one. -/
structure Normal (f : Factors α) : Prop where
  symbolic : ∀ t ∈ f, t.1.angle.symbols ≠ []
  exponential : f.exponentials = [] ∨ ∃ a, f.exponentials = [(.expi a, 1)]

omit [Scalar α] in
lemma Normal.nil : Normal ([] : Factors α) := ⟨by simp, Or.inl rfl⟩

/-- Atoms that folding keeps have symbols and are no exponentials. -/
def Folding.Plain (s : Folding α) : Prop :=
  ∀ t ∈ s.rest, t.1.angle.symbols ≠ [] ∧ t.1.kind ≠ 2

lemma Folding.Plain.step {s : Folding α} (hs : s.Plain) (t : Atom α × UInt32) :
    (s.step t).Plain := by
  intro r hr
  rcases mem_step hr with hr | ⟨hkind, hconst, -, -, heq | ⟨e, hr⟩⟩
  · exact hs r hr
  · rw [heq]
    exact ⟨fun h => Bool.false_ne_true (hconst.symm.trans (Angle.isConstant_iff.mpr h)), hkind⟩
  · exact hs (r.1, e) hr

omit [Scalar α] in
lemma Folding.Plain.exponentials {s : Folding α} (hs : s.Plain) : s.rest.exponentials = [] := by
  refine List.filter_eq_nil_iff.mpr fun t ht => ?_
  simpa using (hs t ht).2

omit [Scalar α] in
lemma Folding.Plain.normal {s : Folding α} (hs : s.Plain) : s.rest.Normal :=
  ⟨fun t ht => (hs t ht).1, Or.inl hs.exponentials⟩

/-- The exponential that collects all others goes beside the atoms that were kept. -/
lemma Folding.Plain.insert {s : Folding α} (hs : s.Plain) {a : Angle α} (ha : a.symbols ≠ []) :
    Normal (OrderedMap.insert Atom.cmp (.expi a) 1 s.rest) := by
  -- no kept atom is an exponential, so the new one finds no entry to replace
  have hnew : ∀ t ∈ s.rest, Atom.cmp (.expi a) t.1 ≠ .eq := fun t ht heq =>
    (hs t ht).2 (Atom.kind_of_cmp heq).symm
  rcases OrderedMap.upsert_cases Atom.cmp (.expi a) (fun _ => 1) s.rest with
    ⟨front, back, hm, hu⟩ | ⟨front, t, e, back, ht, hm, -⟩
  · have hfilter := hs.exponentials
    rw [hm, Factors.exponentials, List.filter_append, List.append_eq_nil_iff] at hfilter
    have hsplit : ∀ t ∈ front ++ (Atom.expi a, 1) :: back,
        t ∈ s.rest ∨ t = (Atom.expi a, 1) := by
      intro t ht
      rw [hm]
      simp only [List.mem_append, List.mem_cons] at ht ⊢
      tauto
    rw [OrderedMap.insert, hu]
    refine ⟨fun t ht => ?_, Or.inr ⟨a, ?_⟩⟩
    · rcases hsplit t ht with ht | rfl
      · exact (hs t ht).1
      · exact ha
    · rw [Factors.exponentials, List.filter_append, hfilter.1, List.nil_append,
        List.filter_cons_of_pos rfl, hfilter.2]
  · exact absurd ht (hnew (t, e) (by simp [hm]))

/-- Folding brings any product into normal form. -/
theorem normal_normalize (f : Factors α) (c : Cartesian α) : (normalize f c).1.Normal := by
  have hplain : (f.foldl Folding.step ⟨[], none, c⟩).Plain :=
    List.foldlRecOn f _ (motive := Folding.Plain) (by simp [Folding.Plain])
      fun s hs t _ => Folding.Plain.step hs t
  rw [normalize]
  generalize f.foldl Folding.step ⟨[], none, c⟩ = s at hplain
  cases s.phase with
  | none => exact hplain.normal
  | some a =>
    dsimp only
    split
    · exact hplain.normal
    · rename_i hconst
      exact hplain.insert (mt Angle.isConstant_iff.mpr hconst)

end Factors

namespace Polynomial
variable {p q : Polynomial α} {f : Factors α}

/-- Like monomials are merged, no coefficient is zero, and every product is in normal form. -/
structure Normal (p : Polynomial α) : Prop where
  sorted : OrderedMap.Sorted Factors.cmp p.terms
  nonzero : ∀ t ∈ p.terms, (t.2 == 0) = false
  factors : p.Each Factors.Normal

lemma Normal.zero : (zero : Polynomial α).Normal := ⟨.nil, by simp [Polynomial.zero], .zero⟩

variable [Std.TransCmp (Scalar.totalCmp (α := α))]

lemma nonzero_accumulate (hp : ∀ t ∈ p.terms, (t.2 == 0) = false) (f : Factors α)
    (c : Cartesian α) : ∀ t ∈ (p.accumulate f c).terms, (t.2 == 0) = false := by
  have hself : Factors.cmp f f = .eq := Std.ReflCmp.compare_self
  -- only the entry at `f` is new, and its coefficient is the one that is looked up and tested
  rw [accumulate]
  split
  · exact hp
  · dsimp only
    intro t ht
    split at ht
    · rename_i s hs
      split at ht
      · simpa using List.of_mem_filter ht
      · rename_i hne
        rcases OrderedMap.mem_or_get?_upsert hself ht with ht | hget
        · exact hp t ht
        · obtain rfl := Option.some.inj (hs.symm.trans hget)
          exact Bool.eq_false_iff.mpr hne
    · rename_i hnone
      rcases OrderedMap.mem_or_get?_upsert hself ht with ht | hget
      · exact hp t ht
      · rw [hnone] at hget
        simp at hget

/-- Adding a monomial puts its coefficient in and drops what is zero. -/
lemma terms_accumulate (hzero : ∀ t ∈ p.terms, (t.2 == 0) = false) (f : Factors α)
    {c : Cartesian α} (hc : (c == 0) = false) : (p.accumulate f c).terms =
      (OrderedMap.upsert Factors.cmp f (fun old => old.getD 0 + c) p.terms).filter
        fun t => !(t.2 == 0) := by
  have hkept : ∀ t ∈ (p.accumulate f c).terms, (!(t.2 == 0)) = true := fun t ht => by
    rw [nonzero_accumulate hzero f c t ht]
    rfl
  -- where nothing is dropped there is no zero to drop, so one filter describes both branches
  rw [← List.filter_eq_self.mpr hkept, accumulate, if_neg (by simp [hc])]
  dsimp only
  split
  · split
    · rw [List.filter_filter]
      simp only [Bool.and_self]
    · rfl
  · rfl

lemma sorted_accumulate (hp : OrderedMap.Sorted Factors.cmp p.terms) (f : Factors α)
    (c : Cartesian α) : OrderedMap.Sorted Factors.cmp (p.accumulate f c).terms := by
  rcases accumulate_cases p f c with ⟨-, h⟩ | ⟨keep, -, h⟩
  · rw [h]
    exact hp
  · rw [h]
    exact (hp.upsert f _).filter keep

lemma Normal.accumulate (hp : p.Normal) (hf : f.Normal) (c : Cartesian α) :
    (p.accumulate f c).Normal :=
  ⟨sorted_accumulate hp.sorted f c, nonzero_accumulate hp.nonzero f c, hp.factors.accumulate hf c⟩

lemma Normal.foldl_accumulate {β : Type} {k : β → Factors α} {c : β → Cartesian α} {ts : List β}
    (hk : ∀ t ∈ ts, (k t).Normal) (hp : p.Normal) :
    (ts.foldl (fun acc t => acc.accumulate (k t) (c t)) p).Normal :=
  List.foldlRecOn ts _ hp fun _ hacc t ht => hacc.accumulate (hk t ht) (c t)

lemma Normal.constant (c : Cartesian α) : (constant c).Normal := Normal.zero.accumulate .nil c

lemma Normal.ofAtom (t : Atom α) : (ofAtom t).Normal :=
  Normal.zero.accumulate (Factors.normal_normalize _ 1) _

lemma Normal.add (hp : p.Normal) (hq : q.Normal) : (p.add q).Normal :=
  foldl_accumulate hq.factors hp

lemma Normal.scale (hp : p.Normal) (c : Cartesian α) : (p.scale c).Normal :=
  foldl_accumulate hp.factors .zero

/-- Products of monomials are out of normal form until they are folded. -/
lemma Normal.mul (p q : Polynomial α) : (p.mul q).Normal := by
  refine List.foldlRecOn p.terms _ (motive := Normal) .zero fun acc hacc s _ => ?_
  exact foldl_accumulate (fun t _ => Factors.normal_normalize _ _) hacc

/-- Whatever the operations build is in normal form, also where an exponent has wrapped around. -/
theorem Built.normal {d : Nat} (hp : p.Built d) : p.Normal := by
  induction hp with
  | zero => exact .zero
  | constant c => exact .constant c
  | cos a | sin a | expi a => exact .ofAtom _
  | add _ _ ihp ihq => exact ihp.add ihq
  | mul _ _ _ _ => exact .mul _ _
  | scale c _ ih => exact ih.scale c

end Polynomial
end GateFusion
