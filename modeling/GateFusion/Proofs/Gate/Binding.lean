import GateFusion.Proofs.Gate.Standard
import GateFusion.Proofs.Parameter.Lowering

/-!
# Late and early binding

The symbols of a gate may be bound when its matrix is evaluated, or its parameters may be replaced
by numbers before the matrix is formed. The second way folds every sine, cosine and exponential on
the spot, the first keeps them to the end; both give the same entries.
-/

namespace GateFusion
variable {α : Type} [Exact α] {lookup : String → Option α}

namespace Expr

/-- Lowering brings in no symbols. -/
lemma mem_occurrences_of_toAngle {e : Expr α} {c : Angle α} (h : e.toAngle = .ok c) :
    ∀ n ∈ c.symbols, n ∈ e.occurrences := by
  induction e generalizing c with
  | constant v | pi =>
    obtain rfl := Except.ok.inj h
    simp [Angle.symbols, Angle.constant]
  | symbol name =>
    obtain rfl := Except.ok.inj h
    simp [Angle.symbols, Angle.symbol, occurrences]
  | neg e ih =>
    obtain ⟨d, hd, h⟩ := bind_eq_ok.mp h
    obtain rfl := Except.ok.inj h
    exact fun n hn => ih hd n (Angle.mem_symbols_scale hn)
  | add a b iha ihb =>
    obtain ⟨c, hc, h⟩ := bind_eq_ok.mp h
    obtain ⟨d, hd, h⟩ := bind_eq_ok.mp h
    obtain rfl := Except.ok.inj h
    intro n hn
    exact List.mem_append.mpr ((Angle.mem_symbols_add hn).imp (iha hc n) (ihb hd n))
  | sub a b iha ihb =>
    obtain ⟨c, hc, h⟩ := bind_eq_ok.mp h
    obtain ⟨d, hd, h⟩ := bind_eq_ok.mp h
    obtain rfl := Except.ok.inj h
    intro n hn
    refine List.mem_append.mpr ((Angle.mem_symbols_add hn).imp (iha hc n) fun hn => ?_)
    exact ihb hd n (Angle.mem_symbols_scale hn)
  | mul a b iha ihb =>
    rw [toAngle] at h
    split at h
    · obtain ⟨d, hd, h⟩ := bind_eq_ok.mp h
      obtain rfl := Except.ok.inj h
      exact fun n hn => List.mem_append_right _ (ihb hd n (Angle.mem_symbols_scale hn))
    · obtain ⟨c, hc, h⟩ := bind_eq_ok.mp h
      obtain rfl := Except.ok.inj h
      exact fun n hn => List.mem_append_left _ (iha hc n (Angle.mem_symbols_scale hn))
    · simp at h
  | div a b iha ihb =>
    rw [toAngle] at h
    split at h
    · split at h
      · simp at h
      · obtain ⟨c, hc, h⟩ := bind_eq_ok.mp h
        obtain rfl := Except.ok.inj h
        exact fun n hn => List.mem_append_left _ (iha hc n (Angle.mem_symbols_scale hn))
    · simp at h

/-- The constant that the angle of an expression evaluates to. An expression whose angle has no
value stays. -/
def settle (lookup : String → Option α) (e : Expr α) : Expr α :=
  match e.toAngle with
  | .ok a => (a.evaluate lookup).elim e .constant
  | .error _ => e

end Expr

/-- An angle without symbols takes the value of another one. -/
structure Angle.Settles (lookup : String → Option α) (late early : Angle α) : Prop where
  bound : Binds lookup late.symbols
  early_eq : early = .constant (late.value (valuation lookup))

namespace Angle.Settles
variable {a b a' b' : Angle α}

lemma scale (h : Settles lookup a b) (r : α) : Settles lookup (a.scale r) (b.scale r) where
  bound := h.bound.mono fun _ => Angle.mem_symbols_scale
  early_eq := by
    rw [h.early_eq, Angle.value_scale]
    simp [Angle.scale, Angle.constant]

lemma add (h : Settles lookup a b) (h' : Settles lookup a' b') :
    Settles lookup (a.add a') (b.add b') where
  bound := h.bound.union h'.bound fun _ => Angle.mem_symbols_add
  early_eq := by
    rw [h.early_eq, h'.early_eq, Angle.value_add]
    simp [Angle.add, Angle.constant]

end Angle.Settles

namespace Polynomial

/-- A polynomial without atoms takes the value of another one. -/
structure Settles (lookup : String → Option α) (late early : Polynomial α) : Prop where
  bound : Binds lookup late.symbols
  early_eq : early = .constant (late.value (valuation lookup))

section Constant

lemma constant_zero : constant (0 : Cartesian α) = zero := by simp [constant, accumulate]

/-- The polynomial of a number other than zero is one monomial without atoms. -/
lemma constant_of_ne_zero {c : Cartesian α} (hc : c ≠ 0) : constant c = ⟨[([], c)]⟩ :=
  zero_accumulate [] hc

lemma asConstant?_constant (c : Cartesian α) : (constant c).asConstant? = some c := by
  by_cases hc : c = 0
  · rw [hc, constant_zero]
    rfl
  · rw [constant_of_ne_zero hc]
    rfl

lemma ofAtom_constant (t : Atom α) {x : α} (ht : t.angle = .constant x) :
    ofAtom t = constant (t.valueAt x) := by
  cases t with
  | cos a | sin a =>
    obtain rfl := ht
    simp [ofAtom, Factors.normalize, Factors.Folding.step, Atom.angle, Angle.isConstant,
      Angle.constant, Atom.valueAt, Cartesian.pow_eq, constant]
  | expi a =>
    obtain rfl := ht
    simp [ofAtom, Factors.normalize, Factors.Folding.step, Angle.scale, Angle.isConstant,
      Angle.constant, Atom.valueAt, constant]

lemma scale_constant (c d : Cartesian α) : (constant c).scale d = constant (c * d) := by
  by_cases hc : c = 0
  · rw [hc, zero_mul, constant_zero]
    rfl
  · rw [constant_of_ne_zero hc]
    rfl

lemma mul_constant (c d : Cartesian α) : (constant c).mul (constant d) = constant (c * d) := by
  by_cases hc : c = 0
  · rw [hc, zero_mul, constant_zero]
    rfl
  · by_cases hd : d = 0
    · rw [hd, mul_zero, constant_zero, constant_of_ne_zero hc]
      rfl
    · rw [constant_of_ne_zero hc, constant_of_ne_zero hd]
      rfl

end Constant

namespace Settles
variable {p q q' : Polynomial α}

/-- A function of an angle settles with the angle. -/
lemma ofAtom {t u : Atom α} (h : Angle.Settles lookup t.angle u.angle)
    (hvalue : u.valueAt = t.valueAt) : Settles lookup (ofAtom t) (ofAtom u) := by
  obtain ⟨hval, hsym⟩ := ofAtom_spec t
  refine ⟨h.bound.mono hsym, ?_⟩
  rw [ofAtom_constant u h.early_eq, hval, hvalue, Atom.value]

lemma scale (h : Settles lookup p q) (c : Cartesian α) :
    Settles lookup (p.scale c) (q.scale c) := by
  obtain ⟨hval, hsym⟩ := scale_spec p c
  refine ⟨h.bound.mono hsym, ?_⟩
  rw [h.early_eq, scale_constant, hval]

/-- Products of two functions of angles settle with both. -/
lemma mul {t u : Atom α} (h : Settles lookup (.ofAtom t) q) (h' : Settles lookup (.ofAtom u) q') :
    Settles lookup ((Polynomial.ofAtom t).mul (.ofAtom u)) (q.mul q') := by
  refine ⟨h.bound.union h'.bound fun _ => mem_symbols_mul, ?_⟩
  rw [h.early_eq, h'.early_eq, mul_constant, value_mul_ofAtom, (ofAtom_spec t).1, (ofAtom_spec u).1]

end Settles
end Polynomial

/-- An entry is the number that another one evaluates to. -/
def Entry.Settles (lookup : String → Option α) (late early : Entry α) : Prop :=
  ∃ c, late.evaluate lookup = some c ∧ early = .numeric c

namespace Entry.Settles

lemma numeric (c : Cartesian α) : Settles lookup (.numeric c) (.numeric c) := ⟨c, rfl, rfl⟩

lemma zero : Settles lookup (0 : Entry α) 0 := .numeric 0

lemma one : Settles lookup (1 : Entry α) 1 := .numeric 1

/-- The polynomial of a number collapses to the number. -/
lemma ofPolynomial {p q : Polynomial α} (h : Polynomial.Settles lookup p q) :
    Settles lookup (.ofPolynomial p) (.ofPolynomial q) := by
  obtain ⟨hval, hsym⟩ := ofPolynomial_spec p
  refine ⟨p.value (valuation lookup), ?_, ?_⟩
  · exact Entry.evaluate_eq_some.mpr ⟨h.bound.mono hsym, (hval _).symm⟩
  · rw [h.early_eq, Entry.ofPolynomial, Polynomial.asConstant?_constant]

variable {a b : Angle α}

lemma cosEntry (h : Angle.Settles lookup a b) (c : Cartesian α) :
    Settles lookup (Quad.cosEntry a c) (Quad.cosEntry b c) :=
  ofPolynomial (.scale (.ofAtom (t := .cos a) (u := .cos b) h rfl) c)

lemma sinEntry (h : Angle.Settles lookup a b) (c : Cartesian α) :
    Settles lookup (Quad.sinEntry a c) (Quad.sinEntry b c) :=
  ofPolynomial (.scale (.ofAtom (t := .sin a) (u := .sin b) h rfl) c)

lemma expiEntry (h : Angle.Settles lookup a b) :
    Settles lookup (Quad.expiEntry a) (Quad.expiEntry b) :=
  ofPolynomial (.ofAtom (t := .expi a) (u := .expi b) h rfl)

end Entry.Settles

/-- All four entries settle. -/
structure Quad.Settles (lookup : String → Option α) (late early : Quad α) : Prop where
  e00 : Entry.Settles lookup late.e00 early.e00
  e01 : Entry.Settles lookup late.e01 early.e01
  e10 : Entry.Settles lookup late.e10 early.e10
  e11 : Entry.Settles lookup late.e11 early.e11

/-- A matrix without symbols holds the values of another one of its size. -/
structure GateMatrix.Settles (lookup : String → Option α) (late early : GateMatrix α) : Prop where
  numQubits : early.numQubits = late.numQubits
  entries : List.Forall₂ (Entry.Settles lookup) late.entries.toList early.entries.toList

lemma GateMatrix.Settles.ofFn {k : Nat} {f f' : Nat → Nat → Entry α}
    (h : ∀ r c, Entry.Settles lookup (f r c) (f' r c)) :
    Settles lookup (ofFn k f) (ofFn k f') where
  numQubits := rfl
  entries := by
    simp only [GateMatrix.ofFn, List.forall₂_map_left_iff, List.forall₂_map_right_iff,
      List.forall₂_same]
    exact fun i _ => h _ _

/-- Evaluating a matrix gives the entries of the one that holds its values. -/
lemma GateMatrix.Settles.evaluate {late early : GateMatrix α} (h : Settles lookup late early) :
    ∃ values, late.evaluate lookup = some values ∧
      early.entries.toList = values.map Entry.numeric := by
  have hlist := h.entries
  unfold GateMatrix.evaluate
  generalize late.entries.toList = es, early.entries.toList = fs at hlist
  induction hlist with
  | nil => exact ⟨[], rfl, rfl⟩
  | cons hentry _ ih =>
    obtain ⟨c, hc, rfl⟩ := hentry
    obtain ⟨values, hvalues, rfl⟩ := ih
    exact ⟨c :: values, by rw [List.mapM_cons, hc, hvalues]; rfl, rfl⟩

namespace Quad.Settles
variable {m m' : Quad α} {a b a₁ b₁ a₂ b₂ : Angle α}

lemma entry (h : Settles lookup m m') (r c : Nat) :
    Entry.Settles lookup (m.entry r c) (m'.entry r c) := by
  unfold Quad.entry
  split
  · split
    · exact h.e00
    · exact h.e01
  · split
    · exact h.e10
    · exact h.e11

lemma numeric (x y z w : Cartesian α) :
    Settles lookup (Quad.numeric x y z w) (Quad.numeric x y z w) :=
  ⟨.numeric x, .numeric y, .numeric z, .numeric w⟩

lemma rotateX (h : Angle.Settles lookup a b) :
    Settles lookup (Quad.rotateX a) (Quad.rotateX b) := by
  have hhalf := h.scale 0.5
  exact ⟨.cosEntry hhalf _, .sinEntry hhalf _, .sinEntry hhalf _, .cosEntry hhalf _⟩

lemma rotateY (h : Angle.Settles lookup a b) :
    Settles lookup (Quad.rotateY a) (Quad.rotateY b) := by
  have hhalf := h.scale 0.5
  exact ⟨.cosEntry hhalf _, .sinEntry hhalf _, .sinEntry hhalf _, .cosEntry hhalf _⟩

lemma rotateZ (h : Angle.Settles lookup a b) :
    Settles lookup (Quad.rotateZ a) (Quad.rotateZ b) :=
  ⟨.expiEntry ((h.scale _).scale _), .zero, .zero, .expiEntry (h.scale _)⟩

lemma phase (h : Angle.Settles lookup a b) : Settles lookup (Quad.phase a) (Quad.phase b) :=
  ⟨.one, .zero, .zero, .expiEntry h⟩

lemma universal (h : Angle.Settles lookup a b) (h₁ : Angle.Settles lookup a₁ b₁)
    (h₂ : Angle.Settles lookup a₂ b₂) :
    Settles lookup (Quad.universal a a₁ a₂) (Quad.universal b b₁ b₂) := by
  have hcos : Polynomial.Settles lookup (.cos (a.scale 0.5)) (.cos (b.scale 0.5)) :=
    .ofAtom (t := .cos _) (u := .cos _) (h.scale _) rfl
  have hsin : Polynomial.Settles lookup (.sin (a.scale 0.5)) (.sin (b.scale 0.5)) :=
    .ofAtom (t := .sin _) (u := .sin _) (h.scale _) rfl
  have hexpi : ∀ {c d : Angle α}, Angle.Settles lookup c d →
      Polynomial.Settles lookup (.expi c) (.expi d) := fun hcd =>
    .ofAtom (t := .expi _) (u := .expi _) hcd rfl
  exact ⟨.ofPolynomial hcos, .ofPolynomial (((hexpi h₂).mul hsin).scale _),
    .ofPolynomial ((hexpi h₁).mul hsin), .ofPolynomial ((hexpi (h₁.add h₂)).mul hcos)⟩

end Quad.Settles

namespace GateMatrix.Settles
variable {m m' : Quad α}

lemma single (h : Quad.Settles lookup m m') : Settles lookup m.single m'.single := ofFn h.entry

lemma controlled (h : Quad.Settles lookup m m') :
    Settles lookup m.controlled m'.controlled := by
  refine ofFn fun r c => ?_
  split
  · exact h.entry _ _
  · split
    · exact .one
    · exact .zero

end GateMatrix.Settles

namespace StandardGate

/-- The gate with every parameter replaced. -/
def mapParameters (f : Expr α → Expr α) : StandardGate α → StandardGate α
  | .rx a => .rx (f a)
  | .ry a => .ry (f a)
  | .rz a => .rz (f a)
  | .p a => .p (f a)
  | .u a b c => .u (f a) (f b) (f c)
  | .crx a => .crx (f a)
  | .cry a => .cry (f a)
  | .crz a => .crz (f a)
  | .cp a => .cp (f a)
  | .rzz a => .rzz (f a)
  | g => g

/-- A parameter lowers before and after its symbols are replaced, to angles of one value. -/
def Settles (lookup : String → Option α) (e : Expr α) : Prop :=
  ∃ a b, angle e = .ok a ∧ angle (e.settle lookup) = .ok b ∧ Angle.Settles lookup a b

/-- Where the symbols of its angle are bound, a parameter becomes a constant. -/
lemma settle_eq_constant {e : Expr α} {a : Angle α} (ha : e.toAngle = .ok a)
    (hbound : Binds lookup a.symbols) :
    ∃ x, a.evaluate lookup = some x ∧ e.settle lookup = .constant x := by
  have hvalue : a.evaluate lookup = some (a.value (valuation lookup)) :=
    Angle.evaluate_eq_some.mpr ⟨hbound, rfl⟩
  refine ⟨_, hvalue, ?_⟩
  simp only [Expr.settle, ha, hvalue, Option.elim_some]

lemma settles_of_toAngle {e : Expr α} {a : Angle α} (ha : e.toAngle = .ok a)
    (hbound : Binds lookup a.symbols) : Settles lookup e := by
  obtain ⟨x, hx, hconst⟩ := settle_eq_constant ha hbound
  obtain ⟨hbinds, rfl⟩ := Angle.evaluate_eq_some.mp hx
  refine ⟨a, _, ?_, ?_, hbinds, rfl⟩
  · rw [angle, ha]
    rfl
  · rw [hconst]
    rfl

/-- A matrix that is formed from one angle settles with its parameter. -/
lemma settles_of_angle {e : Expr α} (he : Settles lookup e) {f f' : Angle α → GateMatrix α}
    (hf : ∀ {a b : Angle α}, Angle.Settles lookup a b → GateMatrix.Settles lookup (f a) (f' b)) :
    ∃ late early : GateMatrix α,
      (angle e >>= fun a => pure (f a)) = .ok late ∧
      (angle (e.settle lookup) >>= fun b => pure (f' b)) = .ok early ∧
      GateMatrix.Settles lookup late early := by
  obtain ⟨a, b, ha, hb, hab⟩ := he
  rw [ha, hb]
  exact ⟨_, _, rfl, rfl, hf hab⟩

lemma settles_rotateZZ {a b : Angle α} (h : Angle.Settles lookup a b) :
    GateMatrix.Settles lookup (rotateZZ a) (rotateZZ b) := by
  unfold rotateZZ
  refine .ofFn fun r c => ?_
  split
  · exact .zero
  · split
    · exact .expiEntry ((h.scale _).scale _)
    · exact .expiEntry (h.scale _)

lemma settles_permutation (k : Nat) (f : Nat → Nat) :
    GateMatrix.Settles lookup (permutation k f : GateMatrix α) (permutation k f) := by
  refine .ofFn fun r c => ?_
  split
  · exact .one
  · exact .zero

/-- Both ways of binding form a matrix, and the late one evaluates to the early one. -/
lemma settles_matrix {g : StandardGate α} (h : ∀ e ∈ g.parameters, Settles lookup e) :
    ∃ late early, g.matrix = .ok late ∧
      (g.mapParameters (Expr.settle lookup)).matrix = .ok early ∧
      GateMatrix.Settles lookup late early := by
  cases g with
  | id | x | y | z | h | s | sdg | t | tdg | sx =>
    exact ⟨_, _, rfl, rfl, .single (.numeric _ _ _ _)⟩
  | cx | cy | cz | ch => exact ⟨_, _, rfl, rfl, .controlled (.numeric _ _ _ _)⟩
  | swap | ccx | cswap => exact ⟨_, _, rfl, rfl, settles_permutation _ _⟩
  | rx e => exact settles_of_angle (h e (by simp [parameters])) fun hab => .single (.rotateX hab)
  | ry e => exact settles_of_angle (h e (by simp [parameters])) fun hab => .single (.rotateY hab)
  | rz e => exact settles_of_angle (h e (by simp [parameters])) fun hab => .single (.rotateZ hab)
  | p e => exact settles_of_angle (h e (by simp [parameters])) fun hab => .single (.phase hab)
  | crx e =>
    exact settles_of_angle (h e (by simp [parameters])) fun hab => .controlled (.rotateX hab)
  | cry e =>
    exact settles_of_angle (h e (by simp [parameters])) fun hab => .controlled (.rotateY hab)
  | crz e =>
    exact settles_of_angle (h e (by simp [parameters])) fun hab => .controlled (.rotateZ hab)
  | cp e =>
    exact settles_of_angle (h e (by simp [parameters])) fun hab => .controlled (.phase hab)
  | rzz e => exact settles_of_angle (h e (by simp [parameters])) settles_rotateZZ
  | u e₁ e₂ e₃ =>
    obtain ⟨a, b, ha, hb, hab⟩ := h e₁ (by simp [parameters])
    obtain ⟨a₁, b₁, ha₁, hb₁, hab₁⟩ := h e₂ (by simp [parameters])
    rw [mapParameters, matrix, matrix, ha, hb, ha₁, hb₁]
    exact settles_of_angle (h e₃ (by simp [parameters])) fun hab₂ =>
      .single (.universal hab hab₁ hab₂)

/-- Late binding is early binding. Where all parameters lower and the symbols of their angles are
bound, which they are if those of the expressions are, the matrix evaluates to the entries of the
matrix whose parameters are the constants that the angles evaluate to. No entry of that one is
symbolic. -/
theorem evaluate_matrix_eq_early {g : StandardGate α}
    (h : ∀ e ∈ g.parameters, ∃ a, e.toAngle = .ok a ∧ Binds lookup a.symbols) :
    (∀ e ∈ g.parameters, ∃ a x, e.toAngle = .ok a ∧ (∀ n ∈ a.symbols, n ∈ e.symbols) ∧
      a.evaluate lookup = some x ∧ e.settle lookup = .constant x) ∧
    ∃ late early values, g.matrix = .ok late ∧
      (g.mapParameters (Expr.settle lookup)).matrix = .ok early ∧
      late.evaluate lookup = some values ∧ early.numQubits = late.numQubits ∧
      early.entries.toList = values.map Entry.numeric := by
  constructor
  · intro e he
    obtain ⟨a, ha, hbound⟩ := h e he
    obtain ⟨x, hx, hconst⟩ := settle_eq_constant ha hbound
    refine ⟨a, x, ha, fun n hn => ?_, hx, hconst⟩
    exact NameSet.mem_ofList.mpr (Expr.mem_occurrences_of_toAngle ha n hn)
  · have hparameters : ∀ e ∈ g.parameters, Settles lookup e := by
      intro e he
      obtain ⟨a, ha, hbound⟩ := h e he
      exact settles_of_toAngle ha hbound
    obtain ⟨late, early, hlate, hearly, hsettles⟩ := settles_matrix hparameters
    obtain ⟨values, hvalues, hentries⟩ := hsettles.evaluate
    exact ⟨late, early, values, hlate, hearly, hvalues, hsettles.numQubits, hentries⟩

section Sample

/-- The general gate with two symbols, one of them in two parameters. -/
def twoSymbols : StandardGate ℝ :=
  .u (.symbol "theta") (.neg (.symbol "phi")) (.add (.symbol "theta") .pi)

/-- Two symbols in three parameters. -/
theorem evaluate_matrix_eq_early_universal : ∃ (late early : GateMatrix ℝ)
    (values : List (Cartesian ℝ)), twoSymbols.matrix = .ok late ∧
      (twoSymbols.mapParameters (Expr.settle Expr.oneAndThree)).matrix = .ok early ∧
      late.evaluate Expr.oneAndThree = some values ∧
      early.entries.toList = values.map Entry.numeric := by
  have hbound : ∀ names, Binds Expr.oneAndThree names := by
    intro names n _
    unfold Expr.oneAndThree
    split <;> rfl
  have hlower : ∀ e ∈ twoSymbols.parameters, ∃ a, e.toAngle = .ok a ∧
      Binds Expr.oneAndThree a.symbols := by
    intro e he
    simp only [twoSymbols, parameters, List.mem_cons, List.not_mem_nil, or_false] at he
    rcases he with rfl | rfl | rfl
    · exact ⟨_, rfl, hbound _⟩
    · exact ⟨_, rfl, hbound _⟩
    · exact ⟨_, rfl, hbound _⟩
  obtain ⟨-, late, early, values, hlate, hearly, hvalues, -, hentries⟩ :=
    evaluate_matrix_eq_early hlower
  exact ⟨late, early, values, hlate, hearly, hvalues, hentries⟩

end Sample

end StandardGate
end GateFusion
