import GateFusion.Proofs.Ordered
import GateFusion.Proofs.Parameter.NormalForm

/-!
# Keys of ordered maps

Angles, atoms and products of atoms are keys of ordered maps. Over scalars whose total order tells
all of them apart, each of the three comparisons is a total order in which only a key itself is
equal to it. Polynomials therefore keep one coefficient for every product of atoms: adding a
monomial changes the coefficient of its own product and no other.
-/

namespace GateFusion

/-- The comparison is a total order that tells all keys apart. -/
structure KeyOrder {κ : Type} (cmp : κ → κ → Ordering) : Prop where
  refl : ∀ a, cmp a a = .eq
  swap : ∀ a b, cmp a b = (cmp b a).swap
  antisymm : ∀ a b, (cmp a b).isLE = true → (cmp b a).isLE = true → a = b
  trans : ∀ a b c, (cmp a b).isLE = true → (cmp b c).isLE = true → (cmp a c).isLE = true
  total : ∀ a b, (cmp a b).isLE = true ∨ (cmp b a).isLE = true

lemma keyOrder_of_lawful {κ : Type} (cmp : κ → κ → Ordering) [Std.TransCmp cmp]
    [Std.LawfulEqCmp cmp] : KeyOrder cmp where
  refl _ := Std.ReflCmp.compare_self
  swap _ _ := Std.OrientedCmp.eq_swap
  antisymm _ _ h h' := Std.LawfulEqCmp.eq_of_compare (Std.OrientedCmp.isLE_antisymm h h')
  trans _ _ _ h h' := Std.TransCmp.isLE_trans h h'
  total a b := by
    have hswap : cmp b a = (cmp a b).swap := Std.OrientedCmp.eq_swap
    rw [hswap]
    cases cmp a b <;> decide

namespace Polynomial
variable {α : Type} [Scalar α]

/-- The position of the entry that a product finds. -/
def slot? (p : Polynomial α) (f : Factors α) : Option Nat :=
  p.terms.findIdx? fun t => Factors.cmp f t.1 == .eq

/-- The coefficient of a product. -/
def coefficient? (p : Polynomial α) (f : Factors α) : Option (Cartesian α) :=
  OrderedMap.get? Factors.cmp f p.terms

variable [Std.TransCmp (Scalar.totalCmp (α := α))]

/-- Every product has a slot in a polynomial with an entry for it. -/
lemma exists_slot?_upsert (p : Polynomial α) (f : Factors α)
    (k : Option (Cartesian α) → Cartesian α) :
    ∃ i, slot? ⟨OrderedMap.upsert Factors.cmp f k p.terms⟩ f = some i := by
  have hself : Factors.cmp f f = .eq := Std.ReflCmp.compare_self
  have hentry : ∃ t ∈ OrderedMap.upsert Factors.cmp f k p.terms, Factors.cmp f t.1 = .eq := by
    rcases OrderedMap.upsert_cases Factors.cmp f k p.terms with ⟨front, back, -, hu⟩ |
      ⟨front, g, x, back, hg, -, hu⟩
    · exact ⟨(f, k none), by simp [hu], hself⟩
    · exact ⟨(g, k (some x)), by simp [hu], hg⟩
  obtain ⟨t, ht, hcmp⟩ := hentry
  refine Option.isSome_iff_exists.mp ?_
  rw [slot?, List.findIdx?_isSome, List.any_eq_true]
  exact ⟨t, ht, by simp [hcmp]⟩

variable [Std.LawfulEqCmp (Scalar.totalCmp (α := α))] {p : Polynomial α}

omit [Std.TransCmp (Scalar.totalCmp (α := α))] in
/-- Two products find the same entry exactly if they are the same. -/
lemma slot?_eq_some_iff {f g : Factors α} {i : Nat} (hf : p.slot? f = some i) :
    p.slot? g = some i ↔ g = f := by
  constructor
  · intro hg
    obtain ⟨hi, hfkey, -⟩ := List.findIdx?_eq_some_iff_getElem.mp hf
    obtain ⟨_, hgkey, -⟩ := List.findIdx?_eq_some_iff_getElem.mp hg
    have hfeq : f = p.terms[i].1 := Std.LawfulEqCmp.eq_of_compare (eq_of_beq hfkey)
    have hgeq : g = p.terms[i].1 := Std.LawfulEqCmp.eq_of_compare (eq_of_beq hgkey)
    rw [hfeq, hgeq]
  · rintro rfl
    exact hf

lemma coefficient?_accumulate (hp : OrderedMap.Sorted Factors.cmp p.terms)
    (hzero : ∀ t ∈ p.terms, (t.2 == 0) = false) (f g : Factors α) {c : Cartesian α}
    (hc : (c == 0) = false) : (p.accumulate f c).coefficient? g =
      (OrderedMap.get? Factors.cmp g
        (OrderedMap.upsert Factors.cmp f (fun old => old.getD 0 + c) p.terms)).filter
          fun s => !(s == 0) := by
  rw [coefficient?, terms_accumulate hzero f hc]
  exact (hp.upsert f _).get?_filter fun s => !(s == 0)

/-- The sum of the coefficients stays unless it is zero. -/
lemma coefficient?_accumulate_self (hp : OrderedMap.Sorted Factors.cmp p.terms)
    (hzero : ∀ t ∈ p.terms, (t.2 == 0) = false) (f : Factors α) {c : Cartesian α}
    (hc : (c == 0) = false) : (p.accumulate f c).coefficient? f =
      (some ((p.coefficient? f).getD 0 + c)).filter fun s => !(s == 0) := by
  rw [coefficient?_accumulate hp hzero f f hc, hp.get?_upsert_self]
  rfl

lemma coefficient?_accumulate_of_ne (hp : OrderedMap.Sorted Factors.cmp p.terms)
    (hzero : ∀ t ∈ p.terms, (t.2 == 0) = false) {f g : Factors α} (h : g ≠ f) (c : Cartesian α) :
    (p.accumulate f c).coefficient? g = p.coefficient? g := by
  have hne : Factors.cmp g f ≠ .eq := fun heq => h (Std.LawfulEqCmp.eq_of_compare heq)
  cases hc : c == 0 with
  | true => rw [accumulate, if_pos hc]
  | false =>
    rw [coefficient?_accumulate hp hzero f g hc, OrderedMap.get?_upsert_of_ne hne, coefficient?]
    cases hx : OrderedMap.get? Factors.cmp g p.terms with
    | none => rfl
    | some x =>
      -- dropping zeros does not reach it, since no coefficient was zero before
      have hmem := hp.get?_eq_some_iff_mem.mp hx
      exact Option.filter_some_pos (by simp [hzero _ hmem])

end Polynomial

/-- Angles, atoms and products of atoms are ordered totally and by all that they hold, and the
polynomials keep one entry for every product. -/
structure LawfulKeys (α : Type) [Scalar α] : Prop where
  angle : KeyOrder (Angle.cmp (α := α))
  /-- The constants decide, then the first entries that differ, then the number of entries. -/
  angle_scan : ∀ a b : Angle α, a.cmp b =
    (Scalar.totalCmp a.constantPart b.constantPart).then
      ((((a.terms.zip b.terms).map fun e =>
        (compare e.1.1 e.2.1).then (Scalar.totalCmp e.1.2 e.2.2)).find? (· != .eq)).getD
          (compare a.terms.length b.terms.length))
  angle_eq : ∀ a b : Angle α, OrderedMap.Sorted compare a.terms →
    OrderedMap.Sorted compare b.terms → (a.cmp b = .eq ↔ a.constantPart = b.constantPart ∧
      ∀ name weight, (name, weight) ∈ a.terms ↔ (name, weight) ∈ b.terms)
  angle_beq : ∀ a b : Angle α, (a == b) = true ↔ a = b
  atom : KeyOrder (Atom.cmp (α := α))
  atom_eq : ∀ s t : Atom α, s.cmp t = .eq ↔ s.kind = t.kind ∧ s.angle = t.angle
  factors : KeyOrder (Factors.cmp (α := α))
  factors_eq : ∀ f g : Factors α, OrderedMap.Sorted Atom.cmp f → OrderedMap.Sorted Atom.cmp g →
    (Factors.cmp f g = .eq ↔ ∀ atom e, (atom, e) ∈ f ↔ (atom, e) ∈ g)
  /-- Once there is an entry for a product, no other product finds it. -/
  slot : ∀ (p : Polynomial α) (f : Factors α) (k : Option (Cartesian α) → Cartesian α),
    ∃ i, Polynomial.slot? ⟨OrderedMap.upsert Factors.cmp f k p.terms⟩ f = some i ∧
      ∀ g, Polynomial.slot? ⟨OrderedMap.upsert Factors.cmp f k p.terms⟩ g = some i ↔ g = f
  /-- Adding a monomial changes the coefficient of its product alone. -/
  accumulate : ∀ p : Polynomial α, OrderedMap.Sorted Factors.cmp p.terms →
    (∀ t ∈ p.terms, (t.2 == 0) = false) → ∀ (f : Factors α) (c : Cartesian α),
      OrderedMap.Sorted Factors.cmp (p.accumulate f c).terms ∧
      (∀ t ∈ (p.accumulate f c).terms, (t.2 == 0) = false) ∧
      ((c == 0) = false → (p.accumulate f c).coefficient? f =
        (some ((p.coefficient? f).getD 0 + c)).filter fun s => !(s == 0)) ∧
      ∀ g, g ≠ f → (p.accumulate f c).coefficient? g = p.coefficient? g

section Lawful
variable {α : Type} [Scalar α] [Std.LawfulEqCmp (Scalar.totalCmp (α := α))]

lemma Atom.cmp_eq_iff {s t : Atom α} : s.cmp t = .eq ↔ s.kind = t.kind ∧ s.angle = t.angle := by
  constructor
  · intro h
    obtain rfl := Std.LawfulEqCmp.eq_of_compare h
    exact ⟨rfl, rfl⟩
  · rintro ⟨hkind, hangle⟩
    rw [Atom.cmp, hkind, hangle, Ordering.then_eq_eq]
    exact ⟨Std.ReflOrd.compare_self, Std.ReflCmp.compare_self⟩

lemma Angle.cmp_eq_iff {a b : Angle α} (ha : OrderedMap.Sorted compare a.terms)
    (hb : OrderedMap.Sorted compare b.terms) : a.cmp b = .eq ↔ a.constantPart = b.constantPart ∧
      ∀ name weight, (name, weight) ∈ a.terms ↔ (name, weight) ∈ b.terms := by
  rw [Angle.cmp, Ordering.then_eq_eq, ha.compareBy_eq_iff hb, Std.LawfulEqCmp.compare_eq_iff_eq]

lemma Angle.beq_iff {a b : Angle α} : (a == b) = true ↔ a = b := by
  constructor
  · intro h
    exact Std.LawfulEqCmp.eq_of_compare (eq_of_beq h)
  · rintro rfl
    have hself : a.cmp a = .eq := Std.ReflCmp.compare_self
    change (a.cmp a == .eq) = true
    rw [hself, beq_self_eq_true]

end Lawful

/-- Whatever the scalars are, a total order on them that tells all apart makes lawful keys. -/
theorem keys_lawful {α : Type} [Scalar α] [Std.TransCmp (Scalar.totalCmp (α := α))]
    [Std.LawfulEqCmp (Scalar.totalCmp (α := α))] : LawfulKeys α where
  angle := keyOrder_of_lawful _
  angle_scan a b := by rw [Angle.cmp, OrderedMap.compareBy_eq_find?]
  angle_eq a b ha hb := Angle.cmp_eq_iff ha hb
  angle_beq a b := Angle.beq_iff
  atom := keyOrder_of_lawful _
  atom_eq s t := Atom.cmp_eq_iff
  factors := keyOrder_of_lawful _
  factors_eq f g hf hg := hf.compareBy_eq_iff hg
  slot p f k := by
    obtain ⟨i, hi⟩ := p.exists_slot?_upsert f k
    exact ⟨i, hi, fun g => Polynomial.slot?_eq_some_iff hi⟩
  accumulate p hp hzero f c := by
    refine ⟨Polynomial.sorted_accumulate hp f c, Polynomial.nonzero_accumulate hzero f c, ?_, ?_⟩
    · exact fun hc => Polynomial.coefficient?_accumulate_self hp hzero f hc
    · exact fun g hg => Polynomial.coefficient?_accumulate_of_ne hp hzero hg c

/-- The keys that the program uses: undefined values and the two zeros have places of their own, and
an angle comes before its extensions. -/
theorem keys_lawful_doubles : LawfulKeys Binary64 ∧
    Angle.cmp (⟨.number (-0.0), []⟩ : Angle Binary64) ⟨.number 0.0, []⟩ = .lt ∧
    Angle.cmp (⟨.nan true, []⟩ : Angle Binary64) ⟨.number (-0.0), []⟩ = .lt ∧
    Angle.cmp (⟨.number 0.0, [("x", .nan false)]⟩ : Angle Binary64)
      ⟨.number 0.0, [("x", .nan false)]⟩ = .eq ∧
    Angle.cmp (⟨.number 0.0, [("x", .nan false)]⟩ : Angle Binary64)
      ⟨.number 0.0, [("x", .nan false), ("y", 0)]⟩ = .lt :=
  ⟨keys_lawful, by decide +kernel, by decide +kernel, by decide +kernel, by decide +kernel⟩

end GateFusion
