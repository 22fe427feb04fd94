import GateFusion.Binary64.Basic
import GateFusion.Proofs.OrderedMap

/-!
# Ordered scalars

Choosing the cheapest of several candidates asks only that comparisons are transitive. Doubles
compare by class, exponent and mantissa, so they qualify, and what is proved about ordered scalars
holds of the numbers that the program runs on. Their total order also tells all of them apart.
-/

namespace GateFusion

/-- Scalars with transitive comparisons. -/
class Ordered (α : Type) [Scalar α] : Prop where
  le_trans : ∀ a b c : α, a ≤ b → b ≤ c → a ≤ c
  transCmp : Std.TransCmp (Scalar.totalCmp (α := α))

instance {α : Type} [Scalar α] [Ordered α] : Std.TransCmp (Scalar.totalCmp (α := α)) :=
  Ordered.transCmp

namespace Binary64
open Float.Model

/-- The class of a double, ascending from negative infinity, then its exponent and its mantissa. -/
def level : UnpackedFloat → Option (Int × Int × Int)
  | .notANumber => none
  | .infinity .negative => some (-2, 0, 0)
  | .finite .negative m e _ => some (-1, -e, -m)
  | .zero _ => some (0, 0, 0)
  | .finite .positive m e _ => some (1, e, m)
  | .infinity .positive => some (2, 0, 0)

/-- One level is at most another, part by part. -/
def AtMost (x y : Int × Int × Int) : Prop :=
  x.1 < y.1 ∨ (x.1 = y.1 ∧ (x.2.1 < y.2.1 ∨ (x.2.1 = y.2.1 ∧ x.2.2 ≤ y.2.2)))

lemma AtMost.trans {x y z : Int × Int × Int} (h : AtMost x y) (h' : AtMost y z) : AtMost x z := by
  unfold AtMost at h h' ⊢
  omega

lemma isLE_compare_then {e₁ e₂ : Int} {m₁ m₂ : Nat} :
    ((compare e₁ e₂).then (compare m₁ m₂)).isLE = true ↔ e₁ < e₂ ∨ (e₁ = e₂ ∧ m₁ ≤ m₂) := by
  rw [Ordering.isLE_then_iff_or, Int.compare_eq_lt, Int.compare_eq_eq, Nat.isLE_compare]

lemma isGE_compare_then {e₁ e₂ : Int} {m₁ m₂ : Nat} :
    ((compare e₁ e₂).then (compare m₁ m₂)).isGE = true ↔ e₂ < e₁ ∨ (e₁ = e₂ ∧ m₂ ≤ m₁) := by
  rw [← Ordering.isLE_swap, Ordering.swap_then, ← Std.OrientedOrd.eq_swap,
    ← Std.OrientedOrd.eq_swap, isLE_compare_then]
  omega

/-- Doubles compare by their levels, and undefined values do not compare. -/
lemma le_iff_level (a b : UnpackedFloat) : a.le b = true ↔
    ∃ x y, level a = some x ∧ level b = some y ∧ AtMost x y := by
  unfold UnpackedFloat.le AtMost
  rcases a with (_ | _) | _ | _ | ⟨_ | _, m₁, e₁, _⟩ <;>
    rcases b with (_ | _) | _ | _ | ⟨_ | _, m₂, e₂, _⟩ <;>
    dsimp only [UnpackedFloat.compare, level] <;>
    simp only [Option.any_some, Ordering.isLE_swap, isLE_compare_then, isGE_compare_then,
      Option.some.injEq, exists_and_left, exists_eq_left'] <;>
    first | omega | decide | simp

lemma float_le_trans {x y z : Float} (h : x ≤ y) (h' : y ≤ z) : x ≤ z := by
  have hle : ∀ {u v : Float}, u ≤ v ↔ u.toModel.unpack.le v.toModel.unpack = true := by
    intro u v
    change (decide (u.toModel ≤ v.toModel)) = true ↔ _
    exact decide_eq_true_iff
  rw [hle, le_iff_level] at h h' ⊢
  obtain ⟨a, b, ha, hb, hab⟩ := h
  obtain ⟨b', c, hb', hc, hbc⟩ := h'
  obtain rfl := Option.some.inj (hb.symm.trans hb')
  exact ⟨a, c, ha, hc, hab.trans hbc⟩

instance : Ordered Binary64 where
  le_trans a b c h h' := by
    cases a with
    | nan s => cases b <;> cases h
    | number x =>
      cases b with
      | nan s => cases h
      | number y =>
        cases c with
        | nan s => cases h'
        | number z =>
          exact decide_eq_true (float_le_trans (of_decide_eq_true h) (of_decide_eq_true h'))
  transCmp := by
    have hplace : Std.TransCmp fun a b : Binary64 => compare a.place b.place :=
      OrderedMap.transCmp_comap place
    exact hplace

/-- The word with all bits set is none of the words that stand for doubles. -/
lemma toNat_toBits_lt (x : Float) : x.toBits.toNat + 1 < 2 * Nat.pow 2 63 := by
  have hlt := x.toBits.toNat_lt
  have hpow : Nat.pow 2 63 = 9223372036854775808 := rfl
  by_contra hge
  have hall : x.toModel.toBits = 18446744073709551615 := by
    apply UInt64.toNat_inj.mp
    change x.toBits.toNat = 18446744073709551615
    omega
  have hvalid := x.toModel.valid.eq_packedNaN
  rw [hall] at hvalid
  exact absurd (hvalid (by decide) (by decide)) (by decide)

lemma place_number (x : Float) : (Binary64.number x).place =
    if Nat.pow 2 63 ≤ x.toBits.toNat then (Nat.pow 2 63 : Int) - x.toBits.toNat - 1
    else x.toBits.toNat := rfl

lemma place_nan (s : Bool) : (Binary64.nan s).place =
    if s then -(Nat.pow 2 63 : Int) else (Nat.pow 2 63 : Int) := rfl

/-- Places tell all values apart. -/
lemma place_injective : Function.Injective place := by
  intro a b h
  cases a with
  | nan s =>
    cases b with
    | nan t => cases s <;> cases t <;> simp [place] at h ⊢
    | number y =>
      have hy := toNat_toBits_lt y
      rw [place_nan, place_number] at h
      split at h <;> split at h <;> omega
  | number x =>
    have hx := toNat_toBits_lt x
    cases b with
    | nan t =>
      rw [place_nan, place_number] at h
      split at h <;> split at h <;> omega
    | number y =>
      have hy := toNat_toBits_lt y
      have heq : x.toBits.toNat = y.toBits.toNat := by
        rw [place_number, place_number] at h
        split at h <;> split at h <;> omega
      obtain ⟨⟨bits, _⟩⟩ := x
      obtain ⟨⟨bits', _⟩⟩ := y
      obtain rfl : bits = bits' := UInt64.toNat_inj.mp heq
      rfl

instance : Std.LawfulEqCmp (Scalar.totalCmp (α := Binary64)) where
  compare_self := Std.ReflCmp.compare_self
  eq_of_compare h := place_injective (Int.compare_eq_eq.mp h)

end Binary64
end GateFusion
