import GateFusion.Proofs.Parameter.Factors
import GateFusion.Proofs.Parameter.Monomials
import Mathlib.Algebra.BigOperators.Ring.List

/-!
# Values of polynomials

Sums, products and multiples of polynomials have the sums, products and multiples of the values:
merging like monomials and dropping zero coefficients loses nothing.
-/

namespace GateFusion

namespace Polynomial
variable {α : Type} [Exact α]

/-- The value of a polynomial with a number for every symbol. -/
def value (v : String → α) (p : Polynomial α) : Cartesian α :=
  (p.terms.map fun t => t.2 * t.1.value v).sum

omit [Exact α] in
lemma mem_symbols [Scalar α] {p : Polynomial α} {n : String} :
    n ∈ p.symbols ↔ ∃ t ∈ p.terms, n ∈ Factors.symbols t.1 := by
  rw [symbols, NameSet.mem_ofList, List.mem_flatMap]
  rfl

lemma value_congr {v v' : String → α} {p : Polynomial α} (h : ∀ n ∈ p.symbols, v n = v' n) :
    p.value v = p.value v' := by
  rw [value, value, List.map_congr_left fun t ht => ?_]
  rw [Factors.value_congr fun n hn => h n (mem_symbols.mpr ⟨t, ht, hn⟩)]

lemma foldl_add_eq {β : Type} (k : β → Cartesian α) (ts : List β) (acc : Cartesian α) :
    ts.foldl (fun acc t => acc + k t) acc = acc + (ts.map k).sum := by
  induction ts generalizing acc with
  | nil => simp
  | cons t ts ih => rw [List.foldl_cons, ih, List.map_cons, List.sum_cons, add_assoc]

/-- Evaluation succeeds exactly if every symbol is bound, with the value of the polynomial. -/
theorem evaluate_eq_some {p : Polynomial α} {lookup : String → Option α} {x : Cartesian α} :
    p.evaluate lookup = some x ↔ Binds lookup p.symbols ∧ x = p.value (valuation lookup) := by
  refine (foldlM_map_eq_some (fun t y => Factors.evaluate_eq_some) p.terms 0 x).trans ?_
  rw [foldl_add_eq (fun t : Factors α × Cartesian α => t.2 * t.1.value (valuation lookup)),
    zero_add]
  refine and_congr_left fun _ => ⟨fun h n hn => ?_, fun h t ht s hs n hn => ?_⟩
  · obtain ⟨t, ht, hn⟩ := mem_symbols.mp hn
    obtain ⟨s, hs, hn⟩ := Factors.mem_symbols.mp hn
    exact h t ht s hs n hn
  · exact h n (mem_symbols.mpr ⟨t, ht, Factors.mem_symbols.mpr ⟨s, hs, hn⟩⟩)

section Accumulate
variable {p : Polynomial α} {f : Factors α} {c : Cartesian α}

lemma sum_filter_keep (v : String → α) {keep : Factors α × Cartesian α → Bool}
    (hkeep : ∀ t, keep t = false → (t.2 == 0) = true) (ts : List (Factors α × Cartesian α)) :
    ((ts.filter keep).map fun t => t.2 * t.1.value v).sum =
      (ts.map fun t => t.2 * t.1.value v).sum := by
  induction ts with
  | nil => rfl
  | cons t ts ih =>
    rw [List.filter_cons]
    split
    · rw [List.map_cons, List.sum_cons, ih, List.map_cons, List.sum_cons]
    · rename_i h
      have hzero : t.2 = 0 := eq_of_beq (hkeep t (by simpa using h))
      rw [ih, List.map_cons, List.sum_cons, hzero, zero_mul, zero_add]

/-- Adding a monomial adds its value. -/
theorem value_accumulate (v : String → α) :
    (p.accumulate f c).value v = p.value v + c * f.value v := by
  rcases accumulate_cases p f c with ⟨hzero, h⟩ | ⟨keep, hkeep, h⟩
  · rw [h, eq_of_beq hzero, zero_mul, add_zero]
  · rw [value, h, sum_filter_keep v hkeep, value]
    rcases OrderedMap.upsert_perm_cases Factors.cmp f (fun old => old.getD 0 + c) p.terms with hu |
      ⟨k, x, rest, hk, hm, hu⟩
    · rw [(hu.map _).sum_eq, List.map_cons, List.sum_cons, Option.getD_none, zero_add, add_comm]
    · obtain rfl := Std.LawfulEqCmp.eq_of_compare hk
      rw [(hu.map _).sum_eq, (hm.map _).sum_eq]
      simp only [List.map_cons, List.sum_cons, Option.getD_some]
      ring

lemma mem_symbols_accumulate {n : String} (h : n ∈ (p.accumulate f c).symbols) :
    n ∈ p.symbols ∨ n ∈ f.symbols := by
  obtain ⟨t, ht, hn⟩ := mem_symbols.mp h
  rcases key_accumulate ht with heq | ⟨x, hx⟩
  · exact Or.inr (heq ▸ hn)
  · exact Or.inl (mem_symbols.mpr ⟨_, hx, hn⟩)

end Accumulate

@[simp] lemma value_zero (v : String → α) : (zero : Polynomial α).value v = 0 := by
  simp [value, zero]

omit [Exact α] in
lemma symbols_zero [Scalar α] : (zero : Polynomial α).symbols = [] := rfl

/-- Adding several monomials. -/
lemma foldl_accumulate {β : Type} (f : β → Factors α) (c : β → Cartesian α) (ts : List β)
    (p : Polynomial α) :
    (∀ v, (ts.foldl (fun acc t => acc.accumulate (f t) (c t)) p).value v =
      p.value v + (ts.map fun t => c t * (f t).value v).sum) ∧
    ∀ n ∈ (ts.foldl (fun acc t => acc.accumulate (f t) (c t)) p).symbols,
      n ∈ p.symbols ∨ ∃ t ∈ ts, n ∈ (f t).symbols := by
  induction ts generalizing p with
  | nil => exact ⟨by simp, fun n hn => Or.inl hn⟩
  | cons t ts ih =>
    obtain ⟨hval, hsym⟩ := ih (p.accumulate (f t) (c t))
    refine ⟨fun v => ?_, fun n hn => ?_⟩
    · rw [List.foldl_cons, hval, value_accumulate, List.map_cons, List.sum_cons, add_assoc]
    · rcases hsym n hn with h | ⟨s, hs, h⟩
      · rcases mem_symbols_accumulate h with h | h
        · exact Or.inl h
        · exact Or.inr ⟨t, by simp, h⟩
      · exact Or.inr ⟨s, by simp [hs], h⟩

section Operations
variable {p q : Polynomial α}

lemma constant_spec (c : Cartesian α) :
    (∀ v, (constant c).value v = c) ∧ ∀ n, n ∉ (constant c).symbols := by
  refine ⟨fun v => ?_, fun n hn => ?_⟩
  · rw [constant, value_accumulate, value_zero, zero_add]
    simp [Factors.value]
  · rcases mem_symbols_accumulate hn with h | h
    · simp [symbols_zero] at h
    · simp [Factors.symbols] at h

lemma ofAtom_spec (t : Atom α) :
    (∀ v, (ofAtom t).value v = t.value v) ∧ ∀ n ∈ (ofAtom t).symbols, n ∈ t.angle.symbols := by
  refine ⟨fun v => ?_, fun n hn => ?_⟩
  · have hvalue := value_accumulate (p := zero) (f := (Factors.normalize [(t, 1)] 1).1)
      (c := (Factors.normalize [(t, 1)] 1).2) v
    rw [value_zero, zero_add, Factors.value_normalize (.singleton t)] at hvalue
    refine hvalue.trans ?_
    simp [Factors.value]
  · rcases mem_symbols_accumulate hn with h | h
    · simp [symbols_zero] at h
    · simpa [Factors.symbols] using Factors.mem_symbols_normalize h

lemma add_spec (p q : Polynomial α) : (∀ v, (p.add q).value v = p.value v + q.value v) ∧
    ∀ n ∈ (p.add q).symbols, n ∈ p.symbols ∨ n ∈ q.symbols := by
  obtain ⟨hval, hsym⟩ := foldl_accumulate Prod.fst Prod.snd q.terms p
  refine ⟨hval, fun n hn => (hsym n hn).imp_right ?_⟩
  rintro ⟨t, ht, h⟩
  exact mem_symbols.mpr ⟨t, ht, h⟩

lemma scale_spec (p : Polynomial α) (c : Cartesian α) :
    (∀ v, (p.scale c).value v = p.value v * c) ∧ ∀ n ∈ (p.scale c).symbols, n ∈ p.symbols := by
  obtain ⟨hval, hsym⟩ := foldl_accumulate Prod.fst (fun t => t.2 * c) p.terms zero
  refine ⟨fun v => ?_, fun n hn => ?_⟩
  · refine (hval v).trans ?_
    rw [value_zero, zero_add, value, ← List.sum_map_mul_right]
    congr 1
    exact List.map_congr_left fun t _ => mul_right_comm _ _ _
  · rcases hsym n hn with h | ⟨t, ht, h⟩
    · simp [symbols_zero] at h
    · exact mem_symbols.mpr ⟨t, ht, h⟩

/-- One monomial times a polynomial, added to what has been collected. -/
def addRow (q : Polynomial α) (acc : Polynomial α) (s : Factors α × Cartesian α) : Polynomial α :=
  q.terms.foldl (fun acc t => acc.accumulate (Factors.normalize (s.1.mul t.1) (s.2 * t.2)).1
    (Factors.normalize (s.1.mul t.1) (s.2 * t.2)).2) acc

lemma mem_symbols_addRow {acc : Polynomial α} {s : Factors α × Cartesian α} {n : String}
    (h : n ∈ (addRow q acc s).symbols) :
    n ∈ acc.symbols ∨ n ∈ s.1.symbols ∨ n ∈ q.symbols := by
  obtain ⟨-, hsym⟩ := foldl_accumulate
    (fun t : Factors α × Cartesian α => (Factors.normalize (s.1.mul t.1) (s.2 * t.2)).1)
    (fun t => (Factors.normalize (s.1.mul t.1) (s.2 * t.2)).2) q.terms acc
  rcases hsym n h with h | ⟨t, ht, h⟩
  · exact Or.inl h
  · rcases Factors.mem_symbols_mul (Factors.mem_symbols_normalize h) with h | h
    · exact Or.inr (Or.inl h)
    · exact Or.inr (Or.inr (mem_symbols.mpr ⟨t, ht, h⟩))

lemma value_addRow {s : Factors α × Cartesian α} (hs : s.1.WellFormed) (hq : q.WellFormed)
    (hd : s.1.degree + q.degree < 2 ^ 32) (acc : Polynomial α) (v : String → α) :
    (addRow q acc s).value v = acc.value v + s.2 * s.1.value v * q.value v := by
  obtain ⟨hval, -⟩ := foldl_accumulate
    (fun t : Factors α × Cartesian α => (Factors.normalize (s.1.mul t.1) (s.2 * t.2)).1)
    (fun t => (Factors.normalize (s.1.mul t.1) (s.2 * t.2)).2) q.terms acc
  refine (hval v).trans ?_
  rw [value, value, ← List.sum_map_mul_left]
  congr 2
  refine List.map_congr_left fun t ht => ?_
  have htq : t.1.degree ≤ _ := q.each_degree_le t ht
  rw [Factors.value_normalize (hs.mul (hq t ht)),
    Factors.value_mul v (hq t ht).sorted (by omega)]
  ring

lemma mem_symbols_mul {n : String} (h : n ∈ (p.mul q).symbols) :
    n ∈ p.symbols ∨ n ∈ q.symbols := by
  revert h
  refine List.foldlRecOn p.terms (addRow q)
    (motive := fun acc => n ∈ acc.symbols → n ∈ p.symbols ∨ n ∈ q.symbols) ?_ ?_
  · simp [symbols_zero]
  · intro acc hacc s hs h
    rcases mem_symbols_addRow h with h | h | h
    · exact hacc h
    · exact Or.inl (mem_symbols.mpr ⟨s, hs, h⟩)
    · exact Or.inr h

/-- Products have the product of the values as long as no exponent can wrap around. -/
theorem value_mul (hp : p.WellFormed) (hq : q.WellFormed) (hd : p.degree + q.degree < 2 ^ 32)
    (v : String → α) : (p.mul q).value v = p.value v * q.value v := by
  have hrows : ∀ (ts : List (Factors α × Cartesian α)) (acc : Polynomial α),
      (∀ s ∈ ts, s ∈ p.terms) → (ts.foldl (addRow q) acc).value v =
        acc.value v + (ts.map fun s => s.2 * s.1.value v).sum * q.value v := by
    intro ts
    induction ts with
    | nil => simp
    | cons s ts ih =>
      intro acc hts
      have hs := hts s (by simp)
      have hsp : s.1.degree ≤ _ := p.each_degree_le s hs
      rw [List.foldl_cons, ih _ fun u hu => hts u (by simp [hu]),
        value_addRow (hp s hs) hq (by omega), List.map_cons, List.sum_cons, add_mul, add_assoc]
  have hmul := hrows p.terms zero fun s hs => hs
  rwa [value_zero, zero_add] at hmul

lemma value_mul_ofAtom (t u : Atom α) (v : String → α) :
    ((ofAtom t).mul (ofAtom u)).value v = t.value v * u.value v := by
  have ht := degree_ofAtom_le t
  have hu := degree_ofAtom_le u
  rw [value_mul (.ofAtom t) (.ofAtom u) (by omega), (ofAtom_spec t).1, (ofAtom_spec u).1]

/-- A polynomial that counts as a number has its value. -/
lemma value_of_asConstant? {c : Cartesian α} (h : p.asConstant? = some c) (v : String → α) :
    p.value v = c := by
  unfold asConstant? at h
  split at h
  · rename_i hterms
    rw [value, hterms, ← Option.some.inj h, List.map_nil, List.sum_nil]
  · rename_i f x hterms
    split at h
    · rename_i hf
      rw [List.isEmpty_iff] at hf
      rw [value, hterms, ← Option.some.inj h, hf]
      simp [Factors.value]
    · simp at h
  · simp at h

section Powers

lemma zero_accumulate (f : Factors α) {c : Cartesian α} (hc : c ≠ 0) :
    zero.accumulate f c = ⟨[(f, c)]⟩ := by
  have hself : Factors.cmp f f = .eq := Std.ReflCmp.compare_self
  have hne : (c == 0) = false := beq_eq_false_iff_ne.mpr hc
  simp [accumulate, zero, OrderedMap.upsert, OrderedMap.get?, hself, hne]

variable {t : Atom α} (hkind : t.kind ≠ 2) (hsymbol : t.angle.isConstant = false)
include hkind hsymbol

end Powers
end Operations
end Polynomial
end GateFusion
