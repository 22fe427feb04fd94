import Mathlib.Data.List.Forall2

/-!
# Related values

Lists and options whose elements correspond, and computations that fail with one error or return
values that correspond. What is computed from related values in the same way is related again.
-/

namespace GateFusion
open Relator
variable {β γ : Type} {R : β → γ → Prop} {xs : List β} {ys : List γ}

lemma forall₂_of_map_eq {δ : Type} {f : β → δ} {k : γ → δ} (h : xs.map f = ys.map k)
    (hR : ∀ x ∈ xs, ∀ y ∈ ys, f x = k y → R x y) : List.Forall₂ R xs ys := by
  induction xs generalizing ys with
  | nil =>
    obtain rfl := List.map_eq_nil_iff.mp h.symm
    exact .nil
  | cons x xs ih =>
    cases ys with
    | nil => simp at h
    | cons y ys =>
      obtain ⟨hhead, htail⟩ := List.cons.inj h
      exact .cons (hR x (by simp) y (by simp) hhead)
        (ih htail fun a ha b hb => hR a (by simp [ha]) b (by simp [hb]))

lemma map_eq_of_forall₂ {δ : Type} {f : β → δ} {k : γ → δ} (h : List.Forall₂ R xs ys)
    (hR : ∀ x y, R x y → f x = k y) : xs.map f = ys.map k := by
  induction h with
  | nil => rfl
  | cons hxy _ ih => rw [List.map_cons, List.map_cons, hR _ _ hxy, ih]

lemma forall₂_erase [DecidableEq β] [DecidableEq γ] (hR : BiUnique R) (h : List.Forall₂ R xs ys)
    {a : β} {b : γ} (hab : R a b) : List.Forall₂ R (xs.erase a) (ys.erase b) := by
  induction h with
  | nil => exact .nil
  | @cons x y xs ys hxy hrest ih =>
    have heq : x = a ↔ y = b := rel_eq hR hxy hab
    rw [List.erase_cons, List.erase_cons]
    by_cases hx : x = a
    · rw [if_pos (by simpa using hx), if_pos (by simpa using heq.mp hx)]
      exact hrest
    · rw [if_neg (by simpa using hx), if_neg (by simpa using mt heq.mpr hx)]
      exact .cons hxy ih

lemma forall₂_find? {p : β → Bool} {r : γ → Bool} (h : List.Forall₂ R xs ys)
    (hp : ∀ x y, R x y → (p x = true ↔ r y = true)) :
    Option.Rel R (xs.find? p) (ys.find? r) := by
  induction h with
  | nil => exact .none
  | @cons x y xs ys hxy _ ih =>
    have hiff := hp x y hxy
    rw [List.find?_cons, List.find?_cons]
    by_cases hx : p x = true
    · rw [hx, hiff.mp hx]
      exact .some hxy
    · rw [Bool.not_eq_true] at hx
      rw [hx, Bool.eq_false_iff.mpr (mt hiff.mpr (by simp [hx]))]
      exact ih

lemma rel_of_some {o : Option β} {o' : Option γ}
    (h : ∀ x, o = some x → ∃ y, o' = some y ∧ R x y)
    (h' : ∀ y, o' = some y → ∃ x, o = some x ∧ R x y) : Option.Rel R o o' := by
  cases o with
  | none =>
    cases o' with
    | none => exact .none
    | some y =>
      obtain ⟨x, hx, -⟩ := h' y rfl
      simp at hx
  | some x =>
    obtain ⟨y, rfl, hxy⟩ := h x rfl
    exact .some hxy

lemma eq_none_of_rel {o : Option β} {o' : Option γ} (h : Option.Rel R o o') (ho : o = none) :
    o' = none := by
  subst ho
  cases h
  rfl

lemma exists_of_rel {o : Option β} {o' : Option γ} (h : Option.Rel R o o') {x : β}
    (ho : o = some x) : ∃ y, o' = some y ∧ R x y := by
  subst ho
  cases h with
  | some hxy => exact ⟨_, rfl, hxy⟩

lemma forall₂_toList {o : Option β} {o' : Option γ} (h : Option.Rel R o o') :
    List.Forall₂ R o.toList o'.toList := by
  cases h with
  | none => exact .nil
  | some hxy => exact .cons hxy .nil

/-- Both computations fail with one error, or both succeed with related values. -/
inductive Agree {ε : Type} (R : β → γ → Prop) : Except ε β → Except ε γ → Prop
  | error (err : ε) : Agree R (.error err) (.error err)
  | ok {x : β} {y : γ} (h : R x y) : Agree R (.ok x) (.ok y)

section Agree
variable {ε δ κ : Type} {P : δ → κ → Prop}

lemma Agree.bind {x : Except ε β} {y : Except ε γ} (h : Agree R x y) {f : β → Except ε δ}
    {k : γ → Except ε κ} (hf : ∀ a b, x = .ok a → y = .ok b → R a b → Agree P (f a) (k b)) :
    Agree P (x >>= f) (y >>= k) := by
  cases h with
  | error err => exact .error err
  | ok hxy => exact hf _ _ rfl rfl hxy

lemma Agree.rfl (x : Except ε β) : Agree Eq x x := by
  cases x with
  | error err => exact .error err
  | ok a => exact .ok (Eq.refl a)

lemma Agree.foldlM {f : β → δ → Except ε β} {k : γ → κ → Except ε γ}
    (hf : ∀ s t x y, R s t → P x y → Agree R (f s x) (k t y)) {ds : List δ} {ks : List κ}
    (h : List.Forall₂ P ds ks) {s : β} {t : γ} (hst : R s t) :
    Agree R (ds.foldlM f s) (ks.foldlM k t) := by
  induction h generalizing s t with
  | nil => exact .ok hst
  | cons hxy _ ih =>
    rw [List.foldlM_cons, List.foldlM_cons]
    exact (hf _ _ _ _ hst hxy).bind fun a b _ _ hab => ih hab

end Agree

end GateFusion
