import GateFusion.Parameter.Expr
import GateFusion.Proofs.Loops
import GateFusion.Proofs.Parameter.Angle
import GateFusion.Proofs.Reals

/-!
# Lowering to affine angles

An expression that lowers to an angle takes the value of the angle once its symbols are replaced by
numbers, however constants and symbols are nested in it. Without symbols it lowers exactly if it has
a value.
-/

namespace GateFusion.Expr

section Substitute
variable {α : Type}

/-- The expression with the constants of an assignment for its symbols. A symbol that has none
stays. -/
def substitute (lookup : String → Option α) : Expr α → Expr α
  | .constant v => .constant v
  | .symbol name => (lookup name).elim (.symbol name) .constant
  | .pi => .pi
  | .neg e => .neg (e.substitute lookup)
  | .add a b => .add (a.substitute lookup) (b.substitute lookup)
  | .sub a b => .sub (a.substitute lookup) (b.substitute lookup)
  | .mul a b => .mul (a.substitute lookup) (b.substitute lookup)
  | .div a b => .div (a.substitute lookup) (b.substitute lookup)

lemma substitute_eq_self (lookup : String → Option α) {e : Expr α} (h : e.occurrences = []) :
    e.substitute lookup = e := by
  induction e with
  | constant v => rfl
  | symbol name => simp [occurrences] at h
  | pi => rfl
  | neg e ih => rw [substitute, ih h]
  | add a b iha ihb | sub a b iha ihb | mul a b iha ihb | div a b iha ihb =>
    obtain ⟨ha, hb⟩ := List.append_eq_nil_iff.mp h
    rw [substitute, iha ha, ihb hb]

end Substitute

section Value
variable {α : Type} [Scalar α] {a b e : Expr α} {x : α}

/-- An operation on two operands has a value if both have one. -/
lemma operands_eq_some {β : Type} {f : β → β → β} {o p : Option β} {x : β} :
    (do return f (← o) (← p)) = some x ↔ ∃ y z, o = some y ∧ p = some z ∧ f y z = x := by
  simp [Option.bind_eq_some_iff]

/-- A quotient has a value if its divisor has one other than zero. -/
lemma value?_div : (div a b).value? = some x ↔
    ∃ y z, a.value? = some y ∧ b.value? = some z ∧ (z == 0) = false ∧ y / z = x := by
  rw [value?]
  cases b.value? with
  | none => simp
  | some z =>
    cases hz : z == 0 with
    | true => simp [hz]
    | false => simp [hz, Option.bind_eq_some_iff]

/-- Only expressions without symbols have a value. -/
lemma occurrences_of_value? (h : e.value? = some x) : e.occurrences = [] := by
  induction e generalizing x with
  | constant v => rfl
  | symbol name => simp [value?] at h
  | pi => rfl
  | neg e ih =>
    obtain ⟨y, hy, -⟩ := Option.map_eq_some_iff.mp h
    exact ih hy
  | add a b iha ihb | sub a b iha ihb | mul a b iha ihb =>
    obtain ⟨y, z, hy, hz, -⟩ := operands_eq_some.mp h
    exact List.append_eq_nil_iff.mpr ⟨iha hy, ihb hz⟩
  | div a b iha ihb =>
    obtain ⟨y, z, hy, hz, -⟩ := value?_div.mp h
    exact List.append_eq_nil_iff.mpr ⟨iha hy, ihb hz⟩

lemma value?_substitute (lookup : String → Option α) (h : e.value? = some x) :
    (e.substitute lookup).value? = some x := by
  rw [substitute_eq_self lookup (occurrences_of_value? h), h]

/-- An expression with a value lowers: no product in it lacks a constant side, and no quotient a
divisor. -/
lemma toAngle_of_value? (h : e.value? = some x) : ∃ c, e.toAngle = .ok c := by
  induction e generalizing x with
  | constant v => exact ⟨_, rfl⟩
  | symbol name => simp [value?] at h
  | pi => exact ⟨_, rfl⟩
  | neg e ih =>
    obtain ⟨y, hy, -⟩ := Option.map_eq_some_iff.mp h
    obtain ⟨c, hc⟩ := ih hy
    exact ⟨c.scale (-1), by rw [toAngle, hc]; rfl⟩
  | add a b iha ihb =>
    obtain ⟨y, z, hy, hz, -⟩ := operands_eq_some.mp h
    obtain ⟨c, hc⟩ := iha hy
    obtain ⟨d, hd⟩ := ihb hz
    exact ⟨c.add d, by rw [toAngle, hc, hd]; rfl⟩
  | sub a b iha ihb =>
    obtain ⟨y, z, hy, hz, -⟩ := operands_eq_some.mp h
    obtain ⟨c, hc⟩ := iha hy
    obtain ⟨d, hd⟩ := ihb hz
    exact ⟨c.add (d.scale (-1)), by rw [toAngle, hc, hd]; rfl⟩
  | mul a b iha ihb =>
    obtain ⟨y, z, hy, hz, -⟩ := operands_eq_some.mp h
    obtain ⟨d, hd⟩ := ihb hz
    exact ⟨d.scale y, by rw [toAngle, hy, hd]; rfl⟩
  | div a b iha ihb =>
    obtain ⟨y, z, hy, hz, hne, -⟩ := value?_div.mp h
    obtain ⟨c, hc⟩ := iha hy
    exact ⟨c.scale (1 / z), by simp only [toAngle, hz, hne, hc]; rfl⟩

end Value

/-- An angle stands for an expression: it has no other symbols, and its value is that of the
expression with constants for the symbols. -/
structure Lowers (e : Expr ℝ) (c : Angle ℝ) : Prop where
  symbols : ∀ n ∈ c.symbols, n ∈ e.occurrences
  value : ∀ lookup, Binds lookup e.occurrences →
    (e.substitute lookup).value? = some (c.value (valuation lookup))

namespace Lowers
variable {e a b : Expr ℝ} {c d : Angle ℝ}

lemma constant (x : ℝ) : Lowers (.constant x) (.constant x) where
  symbols := by simp [Angle.symbols, Angle.constant]
  value lookup _ := by simp [substitute, value?]

lemma pi : Lowers .pi (.constant Scalar.pi) where
  symbols := by simp [Angle.symbols, Angle.constant]
  value lookup _ := by simp [substitute, value?]

lemma symbol (name : String) : Lowers (.symbol name) (.symbol name) where
  symbols := by simp [Angle.symbols, Angle.symbol, occurrences]
  value lookup h := by
    obtain ⟨x, hx⟩ := Option.isSome_iff_exists.mp (h name (by simp [occurrences]))
    rw [Angle.value_symbol, valuation, substitute, hx]
    rfl

/-- A multiple of an angle brings in no symbols. -/
lemma symbols_scale (h : Lowers e c) (x : ℝ) : ∀ n ∈ (c.scale x).symbols, n ∈ e.occurrences :=
  fun n hn => h.symbols n (Angle.mem_symbols_scale hn)

/-- A sum of two angles has the symbols of the two expressions only. -/
lemma symbols_add (ha : Lowers a c) (hb : Lowers b d) :
    ∀ n ∈ (c.add d).symbols, n ∈ a.occurrences ++ b.occurrences := by
  intro n hn
  rw [List.mem_append]
  exact (Angle.mem_symbols_add hn).imp (ha.symbols n) (hb.symbols n)

lemma neg (h : Lowers e c) : Lowers (.neg e) (c.scale (-1)) where
  symbols := h.symbols_scale (-1)
  value lookup hb := by
    refine Option.map_eq_some_iff.mpr ⟨_, h.value lookup hb, ?_⟩
    rw [Angle.value_scale, mul_neg_one]

lemma add (ha : Lowers a c) (hb : Lowers b d) : Lowers (.add a b) (c.add d) where
  symbols := ha.symbols_add hb
  value lookup h := by
    obtain ⟨hbinda, hbindb⟩ := List.forall_mem_append.mp h
    refine operands_eq_some.mpr ⟨_, _, ha.value lookup hbinda, hb.value lookup hbindb, ?_⟩
    rw [Angle.value_add]

lemma sub (ha : Lowers a c) (hb : Lowers b d) : Lowers (.sub a b) (c.add (d.scale (-1))) where
  symbols := by
    have hsub := ha.symbols_add hb.neg
    exact hsub
  value lookup h := by
    obtain ⟨hbinda, hbindb⟩ := List.forall_mem_append.mp h
    refine operands_eq_some.mpr ⟨_, _, ha.value lookup hbinda, hb.value lookup hbindb, ?_⟩
    rw [Angle.value_add, Angle.value_scale, mul_neg_one, sub_eq_add_neg]

lemma mul_left {x : ℝ} (hx : a.value? = some x) (hb : Lowers b d) :
    Lowers (.mul a b) (d.scale x) where
  symbols n hn := List.mem_append_right _ (hb.symbols_scale x n hn)
  value lookup h := by
    obtain ⟨-, hbindb⟩ := List.forall_mem_append.mp h
    refine operands_eq_some.mpr
      ⟨_, _, value?_substitute lookup hx, hb.value lookup hbindb, ?_⟩
    rw [Angle.value_scale, mul_comm]

lemma mul_right {x : ℝ} (ha : Lowers a c) (hx : b.value? = some x) :
    Lowers (.mul a b) (c.scale x) where
  symbols n hn := List.mem_append_left _ (ha.symbols_scale x n hn)
  value lookup h := by
    obtain ⟨hbinda, -⟩ := List.forall_mem_append.mp h
    refine operands_eq_some.mpr
      ⟨_, _, ha.value lookup hbinda, value?_substitute lookup hx, ?_⟩
    rw [Angle.value_scale]

/-- Dividing by a value is scaling by its inverse. -/
lemma div {x r : ℝ} (ha : Lowers a c) (hx : b.value? = some x) (hne : (x == 0) = false)
    (hr : r * x = 1) : Lowers (.div a b) (c.scale r) where
  symbols n hn := List.mem_append_left _ (ha.symbols_scale r n hn)
  value lookup h := by
    obtain ⟨hbinda, -⟩ := List.forall_mem_append.mp h
    rw [substitute, value?_div]
    refine ⟨_, _, ha.value lookup hbinda, value?_substitute lookup hx, hne, ?_⟩
    have hzero : x ≠ 0 := beq_eq_false_iff_ne.mp hne
    rw [Angle.value_scale]
    exact (div_eq_iff hzero).mpr (by rw [mul_assoc, hr, mul_one])

end Lowers

/-- The angle that an expression is lowered to stands for it. -/
lemma lowers_of_toAngle {e : Expr ℝ} {c : Angle ℝ} (h : e.toAngle = .ok c) : Lowers e c := by
  induction e generalizing c with
  | constant v =>
    obtain rfl := Except.ok.inj h
    exact .constant v
  | symbol name =>
    obtain rfl := Except.ok.inj h
    exact .symbol name
  | pi =>
    obtain rfl := Except.ok.inj h
    exact .pi
  | neg e ih =>
    obtain ⟨d, hd, h⟩ := bind_eq_ok.mp h
    obtain rfl := Except.ok.inj h
    exact (ih hd).neg
  | add a b iha ihb =>
    obtain ⟨c, hc, h⟩ := bind_eq_ok.mp h
    obtain ⟨d, hd, h⟩ := bind_eq_ok.mp h
    obtain rfl := Except.ok.inj h
    exact (iha hc).add (ihb hd)
  | sub a b iha ihb =>
    obtain ⟨c, hc, h⟩ := bind_eq_ok.mp h
    obtain ⟨d, hd, h⟩ := bind_eq_ok.mp h
    obtain rfl := Except.ok.inj h
    exact (iha hc).sub (ihb hd)
  | mul a b iha ihb =>
    rw [toAngle] at h
    split at h
    · rename_i hx
      obtain ⟨d, hd, h⟩ := bind_eq_ok.mp h
      obtain rfl := Except.ok.inj h
      exact .mul_left hx (ihb hd)
    · rename_i hx
      obtain ⟨c, hc, h⟩ := bind_eq_ok.mp h
      obtain rfl := Except.ok.inj h
      exact .mul_right (iha hc) hx
    · simp at h
  | div a b iha ihb =>
    rw [toAngle] at h
    split at h
    · rename_i x hx
      split at h
      · simp at h
      · rename_i hne
        obtain ⟨c, hc, h⟩ := bind_eq_ok.mp h
        obtain rfl := Except.ok.inj h
        rw [Bool.not_eq_true] at hne
        exact .div (iha hc) hx hne (one_div_mul_cancel (beq_eq_false_iff_ne.mp hne))
    · simp at h

lemma binds_symbols {α : Type} {lookup : String → Option α} {e : Expr α} :
    Binds lookup e.symbols ↔ Binds lookup e.occurrences :=
  forall_congr' fun n => by rw [symbols, NameSet.mem_ofList]

/-- Lowering means substitution: the angle has no symbols but those of the expression, and where
they are bound its value is that of the expression with the symbols replaced. An expression without
symbols lowers exactly if it has a value. -/
theorem toAngle_substitutes (e : Expr ℝ) :
    (∀ c, e.toAngle = .ok c → (∀ n ∈ c.symbols, n ∈ e.symbols) ∧
      ∀ lookup, Binds lookup e.symbols →
        ∃ x, (e.substitute lookup).value? = some x ∧ c.evaluate lookup = some x) ∧
    (e.symbols = [] → ((∃ c, e.toAngle = .ok c) ↔ ∃ x, e.value? = some x)) := by
  refine ⟨fun c hc => ?_, fun hsym => ?_⟩
  · have hlow := lowers_of_toAngle hc
    have hsub : ∀ n ∈ c.symbols, n ∈ e.symbols := fun n hn =>
      NameSet.mem_ofList.mpr (hlow.symbols n hn)
    refine ⟨hsub, fun lookup hb => ⟨_, hlow.value lookup (binds_symbols.mp hb), ?_⟩⟩
    exact Angle.evaluate_eq_some.mpr ⟨hb.mono hsub, rfl⟩
  · have hocc : e.occurrences = [] := by
      refine List.eq_nil_iff_forall_not_mem.mpr fun n hn => ?_
      have hmem : n ∈ e.symbols := NameSet.mem_ofList.mpr hn
      simp [hsym] at hmem
    constructor
    · rintro ⟨c, hc⟩
      have hval := (lowers_of_toAngle hc).value (fun _ => none) (by simp [hocc, Binds])
      rw [substitute_eq_self _ hocc] at hval
      exact ⟨_, hval⟩
    · rintro ⟨x, hx⟩
      exact toAngle_of_value? hx

section Sample

/-- The mean of two symbols less a half turn. -/
def meanLessPi : Expr ℝ :=
  .sub (.div (.add (.symbol "theta") (.symbol "phi")) (.constant 2)) .pi

/-- One symbol is one, all others are three. -/
noncomputable def oneAndThree (name : String) : Option ℝ :=
  if name = "theta" then some 1 else some 3

/-- A quotient and a difference of symbols, and a quotient that has no value. -/
theorem toAngle_substitutes_mean :
    (∃ c, meanLessPi.toAngle = .ok c ∧
      (meanLessPi.substitute oneAndThree).value? = some (2 - Real.pi) ∧
      c.evaluate oneAndThree = some (2 - Real.pi)) ∧
    ¬ ∃ c, (div (constant (1 : ℝ)) (sub pi pi)).toAngle = .ok c := by
  have hbinds : Binds oneAndThree meanLessPi.symbols := by
    intro n _
    unfold oneAndThree
    split <;> rfl
  have htwo : ((2 : ℝ) == 0) = false := beq_eq_false_iff_ne.mpr two_ne_zero
  have htheta : oneAndThree "theta" = some 1 := if_pos rfl
  have hphi : oneAndThree "phi" = some 3 := if_neg (by decide)
  have hmean : ((1 : ℝ) + 3) / 2 = 2 := by norm_num
  have hvalue : (meanLessPi.substitute oneAndThree).value? = some (2 - Real.pi) := by
    simp only [meanLessPi, substitute, htheta, hphi, Option.elim_some]
    refine operands_eq_some.mpr ⟨2, Real.pi, ?_, rfl, rfl⟩
    exact value?_div.mpr ⟨1 + 3, 2, rfl, rfl, htwo, hmean⟩
  have hzero : (div (constant (1 : ℝ)) (sub pi pi)).value? = none := by
    have hsub : (sub (α := ℝ) pi pi).value? = some 0 :=
      operands_eq_some.mpr ⟨Real.pi, Real.pi, rfl, rfl, sub_self _⟩
    rw [value?, hsub]
    simp
  constructor
  · have hlower : ∃ c, meanLessPi.toAngle = .ok c := by
      simp only [meanLessPi, toAngle, value?, htwo]
      exact ⟨_, rfl⟩
    obtain ⟨c, hc⟩ := hlower
    obtain ⟨-, hsub⟩ := (toAngle_substitutes meanLessPi).1 c hc
    obtain ⟨x, hx, heval⟩ := hsub oneAndThree hbinds
    obtain rfl := Option.some.inj (hx.symm.trans hvalue)
    exact ⟨c, hc, hx, heval⟩
  · rw [(toAngle_substitutes _).2 rfl]
    simp [hzero]

end Sample

end GateFusion.Expr
