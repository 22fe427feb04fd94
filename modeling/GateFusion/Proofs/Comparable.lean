import GateFusion.Proofs.Ordered

/-!
# Undefined values

Rounded arithmetic has a value that stands for an undefined result and differs from itself. Every
comparison with it is false, any two other numbers compare, and the larger of two operands is the
other one when one is undefined. So the largest of a list bounds only those members that are
defined.
-/

namespace GateFusion

/-- Not the undefined value, which alone differs from itself. -/
def Scalar.Defined {α : Type} [Scalar α] (x : α) : Prop := (x == x) = true

/-- Scalars whose comparisons fail on undefined operands and decide between all others. -/
class Comparable (α : Type) [Scalar α] : Prop extends Ordered α where
  defined_zero : Scalar.Defined (0 : α)
  defined_of_le : ∀ a b : α, a ≤ b → Scalar.Defined a ∧ Scalar.Defined b
  le_total : ∀ a b : α, Scalar.Defined a → Scalar.Defined b → a ≤ b ∨ b ≤ a
  lt_iff : ∀ a b : α, a < b ↔ Scalar.Defined a ∧ Scalar.Defined b ∧ ¬ b ≤ a

namespace Scalar
variable {α : Type} [Scalar α] [Comparable α] {a b t : α}

lemma not_lt_iff_le (ha : Defined a) (hb : Defined b) : ¬ a < b ↔ b ≤ a := by
  rw [Comparable.lt_iff]
  constructor
  · intro h
    by_contra hle
    exact h ⟨ha, hb, hle⟩
  · intro hle h
    exact h.2.2 hle

lemma le_of_lt (h : a < b) : a ≤ b := by
  obtain ⟨ha, hb, hnot⟩ := (Comparable.lt_iff a b).mp h
  exact (Comparable.le_total a b ha hb).resolve_right hnot

omit [Comparable α] in
lemma larger_of_defined (ha : Defined a) : larger a b = if a < b then b else a := by
  have hself : (a == a) = true := ha
  rw [larger, if_pos hself]

lemma defined_larger (ha : Defined a) : Defined (larger a b) := by
  rw [larger_of_defined ha]
  split
  · rename_i h
    exact ((Comparable.lt_iff a b).mp h).2.1
  · exact ha

/-- The larger of two operands bounds an undefined one in no way. -/
lemma larger_le_iff (ha : Defined a) : larger a b ≤ t ↔ a ≤ t ∧ (Defined b → b ≤ t) := by
  rw [larger_of_defined ha]
  by_cases h : a < b
  · have hb := ((Comparable.lt_iff a b).mp h).2.1
    rw [if_pos h]
    constructor
    · intro hbt
      exact ⟨Ordered.le_trans a b t (le_of_lt h) hbt, fun _ => hbt⟩
    · intro hboth
      exact hboth.2 hb
  · rw [if_neg h]
    refine ⟨fun hat => ⟨hat, fun hb => ?_⟩, And.left⟩
    exact Ordered.le_trans b a t ((not_lt_iff_le ha hb).mp h) hat

/-- The largest of a list is defined, and bounds the members that are. -/
theorem foldl_larger_le_iff (ds : List α) (ha : Defined a) : Defined (ds.foldl larger a) ∧
    (ds.foldl larger a ≤ t ↔ a ≤ t ∧ ∀ d ∈ ds, Defined d → d ≤ t) := by
  induction ds generalizing a with
  | nil => exact ⟨ha, by simp⟩
  | cons d ds ih =>
    obtain ⟨hdefined, hle⟩ := ih (defined_larger (b := d) ha)
    refine ⟨hdefined, ?_⟩
    rw [List.foldl_cons, hle, larger_le_iff ha, List.forall_mem_cons, and_assoc]

end Scalar

namespace Binary64
open Float.Model

lemma compare_then_eq_lt {e₁ e₂ : Int} {m₁ m₂ : Nat} :
    (compare e₁ e₂).then (compare m₁ m₂) = .lt ↔ e₁ < e₂ ∨ (e₁ = e₂ ∧ m₁ < m₂) := by
  rw [Ordering.then_eq_lt, Int.compare_eq_lt, Int.compare_eq_eq, Nat.compare_eq_lt]

lemma compare_then_eq_gt {e₁ e₂ : Int} {m₁ m₂ : Nat} :
    (compare e₁ e₂).then (compare m₁ m₂) = .gt ↔ e₂ < e₁ ∨ (e₁ = e₂ ∧ m₂ < m₁) := by
  rw [Ordering.then_eq_gt, Int.compare_eq_gt, Int.compare_eq_eq, Nat.compare_eq_gt]

lemma AtMost.total (x y : Int × Int × Int) : AtMost x y ∨ AtMost y x := by
  unfold AtMost
  omega

lemma lt_iff_level (a b : UnpackedFloat) : a.lt b = true ↔
    ∃ x y, level a = some x ∧ level b = some y ∧ ¬ AtMost y x := by
  unfold UnpackedFloat.lt AtMost
  rcases a with (_ | _) | _ | _ | ⟨_ | _, m₁, e₁, _⟩ <;>
    rcases b with (_ | _) | _ | _ | ⟨_ | _, m₂, e₂, _⟩ <;>
    dsimp only [UnpackedFloat.compare, level] <;>
    simp only [beq_iff_eq, Option.some.injEq, Ordering.swap_eq_lt, compare_then_eq_lt,
      compare_then_eq_gt, exists_and_left, exists_eq_left', Int.lt_irrefl, true_and, false_or] <;>
    first | omega | decide | simp

/-- The undefined value alone has no level, and alone differs from itself. -/
lemma beq_self_iff_level (a : UnpackedFloat) : a.beq a = true ↔ ∃ x, level a = some x := by
  unfold UnpackedFloat.beq
  rcases a with (_ | _) | _ | _ | ⟨_ | _, m, e, _⟩ <;> dsimp only [UnpackedFloat.compare, level] <;>
    simp
  all_goals rfl

lemma defined_number_iff (x : Float) :
    Scalar.Defined (Binary64.number x) ↔ ∃ l, level x.toModel.unpack = some l :=
  beq_self_iff_level x.toModel.unpack

lemma not_defined_nan (s : Bool) : ¬ Scalar.Defined (Binary64.nan s) := Bool.false_ne_true

lemma number_le_iff (x y : Float) : Binary64.number x ≤ .number y ↔
    ∃ l k, level x.toModel.unpack = some l ∧ level y.toModel.unpack = some k ∧ AtMost l k := by
  rw [← le_iff_level]
  change decide (decide (x.toModel ≤ y.toModel) = true) = true ↔ _
  rw [decide_eq_true_iff, decide_eq_true_iff]
  rfl

lemma number_lt_iff (x y : Float) : Binary64.number x < .number y ↔
    ∃ l k, level x.toModel.unpack = some l ∧ level y.toModel.unpack = some k ∧ ¬ AtMost k l := by
  rw [← lt_iff_level]
  change decide (decide (x.toModel < y.toModel) = true) = true ↔ _
  rw [decide_eq_true_iff, decide_eq_true_iff]
  rfl

instance : Comparable Binary64 where
  defined_zero := rfl
  defined_of_le a b h := by
    cases a with
    | nan s => cases b <;> cases h
    | number x =>
      cases b with
      | nan s => cases h
      | number y =>
        obtain ⟨l, k, hl, hk, -⟩ := (number_le_iff x y).mp h
        exact ⟨(defined_number_iff x).mpr ⟨l, hl⟩, (defined_number_iff y).mpr ⟨k, hk⟩⟩
  le_total a b ha hb := by
    cases a with
    | nan s => exact absurd ha (not_defined_nan s)
    | number x =>
      cases b with
      | nan s => exact absurd hb (not_defined_nan s)
      | number y =>
        obtain ⟨l, hl⟩ := (defined_number_iff x).mp ha
        obtain ⟨k, hk⟩ := (defined_number_iff y).mp hb
        rw [number_le_iff, number_le_iff]
        exact (AtMost.total l k).imp (fun h => ⟨l, k, hl, hk, h⟩) fun h => ⟨k, l, hk, hl, h⟩
  lt_iff a b := by
    cases a with
    | nan s =>
      have hnot : ¬ Binary64.nan s < b := by cases b <;> exact Bool.false_ne_true
      exact iff_of_false hnot fun h => not_defined_nan s h.1
    | number x =>
      cases b with
      | nan s => exact iff_of_false Bool.false_ne_true fun h => not_defined_nan s h.2.1
      | number y =>
        rw [defined_number_iff, defined_number_iff, number_lt_iff, number_le_iff]
        constructor
        · rintro ⟨l, k, hl, hk, hnot⟩
          refine ⟨⟨l, hl⟩, ⟨k, hk⟩, ?_⟩
          rintro ⟨k', l', hk', hl', h⟩
          rw [hk] at hk'
          rw [hl] at hl'
          cases hk'
          cases hl'
          exact hnot h
        · rintro ⟨⟨l, hl⟩, ⟨k, hk⟩, hnot⟩
          exact ⟨l, k, hl, hk, fun h => hnot ⟨k, l, hk, hl, h⟩⟩

end Binary64
end GateFusion
