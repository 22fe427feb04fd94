import GateFusion.Proofs.Parameter.Exponents
import Mathlib.Algebra.BigOperators.Group.List.Lemmas

/-!
# Products of atoms

The value of a product of atoms is the product of the values. Multiplying and folding keep it: no
atom is lost when a product is put together anew, since every atom occurs in it once.
-/

namespace GateFusion

namespace Atom

/-- The value of an atom with a number for every symbol. -/
def value {α : Type} [Exact α] (v : String → α) (t : Atom α) : Cartesian α :=
  t.valueAt (t.angle.value v)

end Atom

variable {α : Type} [Exact α]

namespace Factors

/-- The value of a product with a number for every symbol. -/
def value (v : String → α) (f : Factors α) : Cartesian α :=
  (f.map fun t => t.1.value v ^ t.2.toNat).prod

/-- The symbols of all angles of a product. -/
def symbols (f : Factors α) : List String := f.flatMap fun t => t.1.angle.symbols

omit [Exact α] in
lemma mem_symbols {f : Factors α} {n : String} :
    n ∈ symbols f ↔ ∃ t ∈ f, n ∈ t.1.angle.symbols := List.mem_flatMap

lemma value_congr {v v' : String → α} {f : Factors α} (h : ∀ n ∈ symbols f, v n = v' n) :
    value v f = value v' f := by
  rw [value, value, List.map_congr_left fun t ht => ?_]
  rw [Atom.value, Atom.value, Angle.value_congr fun n hn => h n (mem_symbols.mpr ⟨t, ht, hn⟩)]

lemma mem_symbols_upsert {f : Factors α} {t : Atom α} {k : Option UInt32 → UInt32} {n : String}
    (h : n ∈ symbols (OrderedMap.upsert Atom.cmp t k f)) : n ∈ symbols f ∨ n ∈ t.angle.symbols := by
  obtain ⟨s, hs, hn⟩ := mem_symbols.mp h
  rcases OrderedMap.mem_upsert hs with hs | rfl | ⟨e, hs, -⟩
  · exact Or.inl (mem_symbols.mpr ⟨s, hs, hn⟩)
  · exact Or.inr hn
  · exact Or.inl (mem_symbols.mpr ⟨_, hs, hn⟩)

lemma foldl_mul_pow (v : String → α) (f : Factors α) (c : Cartesian α) :
    f.foldl (fun acc t => acc * (t.1.valueAt (t.1.angle.value v)).pow t.2.toNat) c =
      c * f.value v := by
  induction f generalizing c with
  | nil => rw [value, List.map_nil, List.prod_nil, mul_one, List.foldl_nil]
  | cons t f ih =>
    rw [List.foldl_cons, ih, value, value, List.map_cons, List.prod_cons, Cartesian.pow_eq,
      mul_assoc, Atom.value]

/-- Evaluation succeeds exactly if every symbol is bound, with the value of the product. -/
lemma evaluate_eq_some {f : Factors α} {c x : Cartesian α} {lookup : String → Option α} :
    evaluate f c lookup = some x ↔
      (∀ t ∈ f, Binds lookup t.1.angle.symbols) ∧ x = c * f.value (valuation lookup) := by
  refine (foldlM_map_eq_some (fun t y => Angle.evaluate_eq_some) f c x).trans ?_
  rw [foldl_mul_pow]

/-- Raising an atom multiplies by its power, unless the exponent wraps around. -/
lemma value_raise (v : String → α) {f : Factors α} {t : Atom α × UInt32}
    (h : ∀ r ∈ f, Atom.cmp t.1 r.1 = .eq → r.2.toNat + t.2.toNat < 2 ^ 32) :
    (f.raise t).value v = f.value v * t.1.value v ^ t.2.toNat := by
  rcases OrderedMap.upsert_perm_cases Atom.cmp t.1 (fun e => e.getD 0 + t.2) f with hu |
    ⟨s, e, rest, hs, hm, hu⟩
  · rw [raise, value, (hu.map _).prod_eq, List.map_cons, List.prod_cons, Option.getD_none,
      UInt32.zero_add, mul_comm, value]
  · have hfits := h (s, e) (hm.mem_iff.mpr (by simp)) hs
    obtain rfl := Std.LawfulEqCmp.eq_of_compare hs
    rw [raise, value, value, (hu.map _).prod_eq, (hm.map _).prod_eq, List.map_cons, List.prod_cons,
      List.map_cons, List.prod_cons, Option.getD_some, toNat_add_of_lt hfits, pow_add]
    ring

/-- Exponents of equal atoms add up. -/
theorem value_mul (v : String → α) {f g : Factors α} (hg : OrderedMap.Sorted Atom.cmp g)
    (hd : f.degree + g.degree < 2 ^ 32) : (f.mul g).value v = f.value v * g.value v := by
  have hvalue := mul_induction (f := f)
    (P := fun acc rest => acc.value v * rest.value v = f.value v * g.value v) hg rfl
  have hempty : value v ([] : Factors α) = 1 := rfl
  rw [hempty, mul_one] at hvalue
  refine hvalue fun acc rest t ht hold hacc => ?_
  have hraise := value_raise v (f := acc) (t := t) fun r hr heq => by
    have hrf := le_degree (hold r hr heq)
    have htg := le_degree ht
    omega
  rw [hraise, ← hacc, value, value, value, List.map_cons, List.prod_cons, mul_assoc]

lemma mem_symbols_mul {f g : Factors α} {n : String} (h : n ∈ symbols (f.mul g)) :
    n ∈ symbols f ∨ n ∈ symbols g := by
  unfold mul at h
  induction g generalizing f with
  | nil => exact Or.inl h
  | cons t g ih =>
    rcases ih h with h | h
    · rcases mem_symbols_upsert h with h | h
      · exact Or.inl h
      · exact Or.inr (mem_symbols.mpr ⟨t, by simp, h⟩)
    · obtain ⟨s, hs, hn⟩ := mem_symbols.mp h
      exact Or.inr (mem_symbols.mpr ⟨s, by simp [hs], hn⟩)

section Folding

/-- What the exponentials folded so far stand for. -/
def phaseValue (v : String → α) : Option (Angle α) → Cartesian α
  | none => 1
  | some a => Cartesian.polar 1 (a.value v)

/-- What a folding stands for. -/
def Folding.value (v : String → α) (s : Folding α) : Cartesian α :=
  s.coefficient * s.rest.value v * phaseValue v s.phase

/-- The symbols that a folding mentions. -/
def Folding.Mentions (s : Folding α) (n : String) : Prop :=
  n ∈ s.rest.symbols ∨ ∃ a ∈ s.phase, n ∈ a.symbols

/-- Putting an atom into a product that does not have it multiplies by its power. -/
lemma value_insert (v : String → α) {f : Factors α} {t : Atom α}
    (h : ∀ s ∈ f, Atom.cmp t s.1 ≠ .eq) (k : UInt32) :
    value v (OrderedMap.insert Atom.cmp t k f) = t.value v ^ k.toNat * f.value v := by
  rw [OrderedMap.insert, value, ((OrderedMap.upsert_perm h _).map _).prod_eq, List.map_cons,
    List.prod_cons, value]

/-- Folding an atom that is not among those kept multiplies by its power. -/
lemma Folding.value_step (v : String → α) (s : Folding α) {t : Atom α} {k : UInt32}
    (hk : t.kind = 2 → 0 < k.toNat) (hnew : ∀ r ∈ s.rest, Atom.cmp t r.1 ≠ .eq) :
    (s.step (t, k)).value v = s.value v * t.value v ^ k.toNat := by
  by_cases hkind : t.kind = 2
  · rw [eq_expi_of_kind hkind, step_expi]
    obtain ⟨n, hn⟩ := Nat.exists_eq_succ_of_ne_zero (hk hkind).ne'
    generalize t.angle = a
    have hpow : (Atom.expi a).value v ^ k.toNat =
        Cartesian.polar 1 ((a.scale (k.toNat : α)).value v) := by
      rw [Angle.value_scale, hn, Nat.succ_eq_add_one, Cartesian.polar_nsmul]
      rfl
    rw [hpow]
    cases hphase : s.phase with
    | none => simp [Folding.value, phaseValue, hphase]
    | some acc =>
      simp only [Folding.value, phaseValue, hphase, Angle.value_add, Cartesian.polar_add]
      ring
  · rw [step_of_kind s hkind]
    split
    · rename_i hconst
      have hval : t.valueAt t.angle.constantPart = t.value v := by
        rw [Atom.value, Angle.value_of_isConstant v hconst]
      simp only [Folding.value, Cartesian.pow_eq, hval]
      ring
    · simp only [Folding.value, value_insert v hnew]
      ring

lemma Folding.mentions_step {s : Folding α} {t : Atom α} {k : UInt32} {n : String}
    (h : (s.step (t, k)).Mentions n) : s.Mentions n ∨ n ∈ t.angle.symbols := by
  by_cases hkind : t.kind = 2
  · rw [eq_expi_of_kind hkind, step_expi] at h
    rcases h with h | ⟨a, ha, hn⟩
    · exact Or.inl (Or.inl h)
    · obtain rfl := Option.some.inj ha
      cases hphase : s.phase with
      | none =>
        rw [hphase] at hn
        exact Or.inr (Angle.mem_symbols_scale hn)
      | some acc =>
        rw [hphase] at hn
        rcases Angle.mem_symbols_add hn with hn | hn
        · exact Or.inl (Or.inr ⟨acc, hphase, hn⟩)
        · exact Or.inr (Angle.mem_symbols_scale hn)
  · rw [step_of_kind s hkind] at h
    split at h
    · exact Or.inl h
    · rcases h with h | h
      · exact (mem_symbols_upsert h).imp_left Or.inl
      · exact Or.inl (Or.inr h)

/-- Folding a product with distinct atoms one after another. -/
lemma Folding.value_foldl (v : String → α) {f : Factors α} (hf : f.Foldable) {s : Folding α}
    (hnew : ∀ t ∈ f, ∀ r ∈ s.rest, Atom.cmp t.1 r.1 ≠ .eq) :
    (f.foldl step s).value v = s.value v * f.value v := by
  induction f generalizing s with
  | nil => rw [List.foldl_nil, Factors.value, List.map_nil, List.prod_nil, mul_one]
  | cons t f ih =>
    obtain ⟨t, k⟩ := t
    have hk := hf.phase (t, k) (by simp)
    have hne := List.pairwise_cons.mp hf.sorted.pairwise_ne
    have htail : Foldable f :=
      ⟨(List.pairwise_cons.mp hf.sorted).2, fun r hr => hf.phase r (by simp [hr])⟩
    have hstep := ih htail (s := s.step (t, k)) fun u hu r hr => by
      have hold := hnew u (by simp [hu])
      rcases mem_step hr with hr | ⟨-, -, -, -, heq | ⟨e, hr⟩⟩
      · exact hold r hr
      · rw [heq]
        exact hne.1 u hu
      · exact hold (r.1, e) hr
    rw [List.foldl_cons, hstep, value_step v s hk (hnew (t, k) (by simp)), mul_assoc,
      Factors.value, Factors.value, List.map_cons, List.prod_cons]

lemma Folding.mentions_foldl {f : Factors α} {c : Cartesian α} {n : String}
    (h : (f.foldl step ⟨[], none, c⟩).Mentions n) : n ∈ f.symbols := by
  revert h
  refine List.foldlRecOn f _ (motive := fun s => Mentions s n → n ∈ f.symbols) ?_ ?_
  · rintro (h | ⟨a, ha, -⟩)
    · simp [symbols] at h
    · simp at ha
  · intro s hs t ht h
    rcases mentions_step h with h | h
    · exact hs h
    · exact mem_symbols.mpr ⟨t, ht, h⟩

end Folding

/-- Folding a product keeps its value. -/
theorem value_normalize {f : Factors α} (hf : f.Foldable) (c : Cartesian α) (v : String → α) :
    (normalize f c).2 * (normalize f c).1.value v = c * f.value v := by
  have hfolded := folded f c
  have hval := Folding.value_foldl v hf (s := ⟨[], none, c⟩) (by simp)
  rw [normalize]
  generalize f.foldl Folding.step ⟨[], none, c⟩ = s at hfolded hval
  have hstart : (⟨[], none, c⟩ : Folding α).value v = c := by
    simp [Folding.value, phaseValue, value]
  rw [hstart] at hval
  rw [← hval, Folding.value]
  cases s.phase with
  | none => rw [phaseValue, mul_one]
  | some a =>
    dsimp only
    split
    · rename_i hconst
      rw [phaseValue, Angle.value_of_isConstant v hconst]
      ring
    · have hnew : ∀ r ∈ s.rest, Atom.cmp (.expi a) r.1 ≠ .eq := fun r hr heq =>
        hfolded.kind r hr (Atom.kind_of_cmp heq).symm
      have hexpi : (Atom.expi a).value v = Cartesian.polar 1 (a.value v) := rfl
      have hone : (1 : UInt32).toNat = 1 := rfl
      rw [phaseValue, value_insert v hnew, hone, pow_one, hexpi]
      ring

/-- Folding brings in no symbols. -/
theorem mem_symbols_normalize {f : Factors α} {c : Cartesian α} {n : String}
    (h : n ∈ (normalize f c).1.symbols) : n ∈ f.symbols := by
  have hmentions := Folding.mentions_foldl (f := f) (c := c) (n := n)
  rw [normalize] at h
  generalize f.foldl Folding.step ⟨[], none, c⟩ = s at hmentions h
  cases hphase : s.phase with
  | none =>
    rw [hphase] at h
    exact hmentions (Or.inl h)
  | some a =>
    rw [hphase] at h
    dsimp only at h
    split at h
    · exact hmentions (Or.inl h)
    · rcases mem_symbols_upsert h with h | h
      · exact hmentions (Or.inl h)
      · exact hmentions (Or.inr ⟨a, hphase, h⟩)

end Factors
end GateFusion
