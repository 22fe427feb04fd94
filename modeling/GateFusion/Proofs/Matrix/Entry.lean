import GateFusion.Proofs.Parameter.Polynomial
import GateFusion.Matrix.Entry

/-!
# Values of matrix entries

Numbers and polynomials are added and multiplied alike: an entry has a value under every assignment
of its symbols, and collapsing a polynomial to a number keeps it. Entries have exponents as their
polynomials do.
-/

namespace GateFusion.Entry

section Exponents
variable {α : Type}

/-- The largest exponent of the polynomial of a symbolic entry. -/
def degree : Entry α → Nat
  | .numeric _ => 0
  | .symbolic p => p.degree

variable [Scalar α] {a b : Entry α}

/-- The polynomial of a symbolic entry is well formed. -/
def WellFormed : Entry α → Prop
  | .numeric _ => True
  | .symbolic p => p.WellFormed

lemma WellFormed.zero : (0 : Entry α).WellFormed := trivial

lemma WellFormed.ofPolynomial {p : Polynomial α} (hp : p.WellFormed) :
    (ofPolynomial p).WellFormed := by
  unfold Entry.ofPolynomial
  split
  · trivial
  · exact hp

lemma degree_ofPolynomial_le (p : Polynomial α) : (ofPolynomial p).degree ≤ p.degree := by
  unfold Entry.ofPolynomial
  split
  · exact Nat.zero_le _
  · exact le_rfl

lemma WellFormed.add (ha : a.WellFormed) (hb : b.WellFormed) : (a.add b).WellFormed := by
  cases a with
  | numeric c =>
    cases b with
    | numeric d => trivial
    | symbolic q => exact .ofPolynomial (Polynomial.Each.add hb (Polynomial.WellFormed.constant c))
  | symbolic p =>
    cases b with
    | numeric d => exact .ofPolynomial (Polynomial.Each.add ha (Polynomial.WellFormed.constant d))
    | symbolic q => exact .ofPolynomial (Polynomial.Each.add ha hb)

lemma degree_add_le (a b : Entry α) : (a.add b).degree ≤ max a.degree b.degree := by
  have hconstant : ∀ (p : Polynomial α) (c : Cartesian α),
      (ofPolynomial (p.add (.constant c))).degree ≤ p.degree := fun p c => by
    have hadd := Polynomial.degree_add_le p (.constant c)
    rw [Polynomial.degree_constant, Nat.max_zero] at hadd
    exact (degree_ofPolynomial_le _).trans hadd
  cases a with
  | numeric c =>
    cases b with
    | numeric d => exact Nat.zero_le _
    | symbolic q => exact (hconstant q c).trans (le_max_right _ _)
  | symbolic p =>
    cases b with
    | numeric d => exact (hconstant p d).trans (le_max_left _ _)
    | symbolic q => exact (degree_ofPolynomial_le _).trans (Polynomial.degree_add_le p q)

/-- A property that numbers have and that sums and products keep. -/
structure Closed (P : Entry α → Prop) : Prop where
  numeric : ∀ c, P (.numeric c)
  add : ∀ {a b}, P a → P b → P (a.add b)
  mul : ∀ {a b}, P a → P b → P (a.mul b)

variable [Std.TransCmp (Scalar.totalCmp (α := α))]

lemma WellFormed.mul (ha : a.WellFormed) (hb : b.WellFormed) : (a.mul b).WellFormed := by
  cases a with
  | numeric c =>
    cases b with
    | numeric d => trivial
    | symbolic q => exact .ofPolynomial (Polynomial.Each.scale hb c)
  | symbolic p =>
    cases b with
    | numeric d => exact .ofPolynomial (Polynomial.Each.scale ha d)
    | symbolic q => exact .ofPolynomial (.mul p q)

lemma closed_wellFormed : Closed (WellFormed (α := α)) where
  numeric _ := trivial
  add := .add
  mul := .mul

lemma degree_mul_le (ha : a.WellFormed) (hb : b.WellFormed) :
    (a.mul b).degree ≤ a.degree + b.degree := by
  have hscale : ∀ (p : Polynomial α) (c : Cartesian α),
      (ofPolynomial (p.scale c)).degree ≤ p.degree := fun p c =>
    (degree_ofPolynomial_le _).trans (Polynomial.degree_scale_le p c)
  cases a with
  | numeric c =>
    cases b with
    | numeric d => exact Nat.zero_le _
    | symbolic q => exact (hscale q c).trans (Nat.le_add_left _ _)
  | symbolic p =>
    cases b with
    | numeric d => exact (hscale p d).trans (Nat.le_add_right _ _)
    | symbolic q => exact (degree_ofPolynomial_le _).trans (Polynomial.degree_mul_le ha hb)

end Exponents

section Value
variable {α : Type} [Exact α]

/-- The value of an entry with a number for every symbol. -/
def value (v : String → α) : Entry α → Cartesian α
  | .numeric c => c
  | .symbolic p => p.value v

@[simp] lemma value_zero (v : String → α) : (0 : Entry α).value v = 0 := rfl

@[simp] lemma value_one (v : String → α) : (1 : Entry α).value v = 1 := rfl

omit [Exact α] in
lemma symbols_zero [Scalar α] : (0 : Entry α).symbols = [] := rfl

lemma value_of_isZero {e : Entry α} (h : e.isZero = true) (v : String → α) : e.value v = 0 := by
  cases e with
  | numeric c => exact eq_of_beq h
  | symbolic p =>
    have hterms : p.terms = [] := by simpa [isZero, Polynomial.isZero] using h
    rw [value, Polynomial.value, hterms, List.map_nil, List.sum_nil]

/-- Evaluation succeeds exactly if every symbol is bound, with the value of the entry. -/
theorem evaluate_eq_some {e : Entry α} {lookup : String → Option α} {x : Cartesian α} :
    e.evaluate lookup = some x ↔ Binds lookup e.symbols ∧ x = e.value (valuation lookup) := by
  cases e with
  | numeric c =>
    have hbinds : Binds lookup (numeric c : Entry α).symbols := fun n hn => absurd hn (by
      simp [symbols])
    rw [evaluate, Option.some.injEq, and_iff_right hbinds, value, eq_comm]
  | symbolic p => exact Polynomial.evaluate_eq_some

/-- Polynomials that are numbers become numbers. -/
lemma ofPolynomial_spec (p : Polynomial α) : (∀ v, (ofPolynomial p).value v = p.value v) ∧
    ∀ n ∈ (ofPolynomial p).symbols, n ∈ p.symbols := by
  unfold ofPolynomial
  cases hc : p.asConstant? with
  | none => exact ⟨fun v => rfl, fun n hn => hn⟩
  | some c =>
    refine ⟨fun v => ?_, fun n hn => ?_⟩
    · rw [Polynomial.value_of_asConstant? hc, value]
    · simp [symbols] at hn

theorem add_spec (a b : Entry α) : (∀ v, (a.add b).value v = a.value v + b.value v) ∧
    ∀ n ∈ (a.add b).symbols, n ∈ a.symbols ∨ n ∈ b.symbols := by
  have hmixed : ∀ (p : Polynomial α) (c : Cartesian α),
      (∀ v, (ofPolynomial (p.add (.constant c))).value v = p.value v + c) ∧
        ∀ n ∈ (ofPolynomial (p.add (.constant c))).symbols, n ∈ p.symbols := by
    intro p c
    obtain ⟨hcval, hcsym⟩ := Polynomial.constant_spec c
    obtain ⟨haval, hasym⟩ := Polynomial.add_spec p (.constant c)
    obtain ⟨hval, hsym⟩ := ofPolynomial_spec (p.add (.constant c))
    refine ⟨fun v => by rw [hval, haval, hcval], fun n hn => ?_⟩
    exact (hasym n (hsym n hn)).resolve_right (hcsym n)
  cases a with
  | numeric c =>
    cases b with
    | numeric d => exact ⟨fun v => rfl, fun n hn => Or.inl hn⟩
    | symbolic p =>
      obtain ⟨hval, hsym⟩ := hmixed p c
      exact ⟨fun v => (hval v).trans (add_comm _ _), fun n hn => Or.inr (hsym n hn)⟩
  | symbolic p =>
    cases b with
    | numeric d =>
      obtain ⟨hval, hsym⟩ := hmixed p d
      exact ⟨hval, fun n hn => Or.inl (hsym n hn)⟩
    | symbolic q =>
      obtain ⟨haval, hasym⟩ := Polynomial.add_spec p q
      obtain ⟨hval, hsym⟩ := ofPolynomial_spec (p.add q)
      exact ⟨fun v => (hval v).trans (haval v), fun n hn => hasym n (hsym n hn)⟩

lemma value_ofPolynomial_scale (p : Polynomial α) (c : Cartesian α) (v : String → α) :
    (ofPolynomial (p.scale c)).value v = p.value v * c := by
  rw [(ofPolynomial_spec _).1, (Polynomial.scale_spec p c).1]

lemma value_mul_of_isZero {a b : Entry α} (h : (a.isZero || b.isZero) = true) (v : String → α) :
    (a.mul b).value v = 0 := by
  rw [Bool.or_eq_true] at h
  have hzero : a.value v * b.value v = 0 := by
    rcases h with h | h
    · rw [value_of_isZero h, zero_mul]
    · rw [value_of_isZero h, mul_zero]
  cases a with
  | numeric c =>
    cases b with
    | numeric d => exact hzero
    | symbolic q => exact ((value_ofPolynomial_scale q c v).trans (mul_comm _ _)).trans hzero
  | symbolic p =>
    cases b with
    | numeric d => exact (value_ofPolynomial_scale p d v).trans hzero
    | symbolic q =>
      -- No term is multiplied here, so no exponent is either.
      have hproduct : p.mul q = .zero := by
        have hnil : ∀ {p : Polynomial α}, (Entry.symbolic p).isZero = true → p = .zero :=
          fun h => congrArg Polynomial.mk (List.isEmpty_iff.mp h)
        rcases h with h | h
        · rw [hnil h]
          rfl
        · rw [hnil h]
          exact List.foldlRecOn p.terms _ (motive := (· = Polynomial.zero)) rfl fun _ h _ _ => h
      rw [mul, (ofPolynomial_spec _).1, hproduct, Polynomial.value_zero]

/-- Products have the product of the values as long as no exponent can wrap around. -/
theorem value_mul {a b : Entry α} (ha : a.WellFormed) (hb : b.WellFormed)
    (hd : a.degree + b.degree < 2 ^ 32) (v : String → α) :
    (a.mul b).value v = a.value v * b.value v := by
  cases a with
  | numeric c =>
    cases b with
    | numeric d => rfl
    | symbolic p => exact (value_ofPolynomial_scale p c v).trans (mul_comm _ _)
  | symbolic p =>
    cases b with
    | numeric d => exact value_ofPolynomial_scale p d v
    | symbolic q => exact ((ofPolynomial_spec _).1 v).trans (Polynomial.value_mul ha hb hd v)

lemma mem_symbols_mul {a b : Entry α} {n : String} (h : n ∈ (a.mul b).symbols) :
    n ∈ a.symbols ∨ n ∈ b.symbols := by
  have hscale : ∀ {p : Polynomial α} {c : Cartesian α},
      n ∈ (ofPolynomial (p.scale c)).symbols → n ∈ p.symbols := fun h =>
    (Polynomial.scale_spec _ _).2 n ((ofPolynomial_spec _).2 n h)
  cases a with
  | numeric c =>
    cases b with
    | numeric d => exact Or.inl h
    | symbolic p => exact Or.inr (hscale h)
  | symbolic p =>
    cases b with
    | numeric d => exact Or.inl (hscale h)
    | symbolic q => exact Polynomial.mem_symbols_mul ((ofPolynomial_spec _).2 n h)

end Value
end GateFusion.Entry
