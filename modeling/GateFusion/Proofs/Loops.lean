import GateFusion.Circuit.Error
import Mathlib.Data.List.Forall2

/-!
# Steps and loops that may stop

A computation that may stop with an error succeeds exactly if all its steps do. So a success gives
the results of the steps, and a loop whose steps all succeed succeeds.
-/

namespace GateFusion
variable {ε β γ : Type}

theorem bind_eq_ok {x : Except ε β} {f : β → Except ε γ} {y : γ} :
    x >>= f = .ok y ↔ ∃ a, x = .ok a ∧ f a = .ok y := by
  cases x with
  | error err => simp [bind, Except.bind]
  | ok a => simp [bind, Except.bind]

theorem mapError_eq_ok {δ : Type} {x : Except ε β} {f : ε → δ} {y : β} :
    x.mapError f = .ok y ↔ x = .ok y := by
  cases x with
  | error err => simp [Except.mapError]
  | ok a => simp [Except.mapError]

theorem checkIndexWidth_eq_ok {α : Type} {n : Nat} {context : String} :
    checkIndexWidth (α := α) n context = .ok () ↔ n ≤ maxIndexWidth := by
  unfold checkIndexWidth
  split
  · simpa
  · simpa using Nat.le_of_not_lt ‹_›

theorem forM_eq_ok {xs : List β} {f : β → Except ε Unit} (h : ∀ x ∈ xs, f x = .ok ()) :
    xs.forM f = .ok () := by
  induction xs with
  | nil => rfl
  | cons x xs ih =>
    have hrest := ih fun y hy => h y (by simp [hy])
    rw [List.forM_eq_forM] at hrest ⊢
    rw [List.forM_cons, h x (by simp)]
    exact hrest

/-- A loop without results succeeds only if every step does. -/
theorem forall_of_forM {xs : List β} {f : β → Except ε Unit} (h : xs.forM f = .ok ()) :
    ∀ x ∈ xs, f x = .ok () := by
  induction xs with
  | nil => simp
  | cons x xs ih =>
    rw [List.forM_eq_forM, List.forM_cons] at h
    obtain ⟨_, hx, hrest⟩ := bind_eq_ok.mp h
    exact List.forall_mem_cons.mpr ⟨hx, ih (by rwa [List.forM_eq_forM])⟩

theorem mapM_eq_ok {xs : List β} {f : β → Except ε γ} {k : β → γ}
    (h : ∀ x ∈ xs, f x = .ok (k x)) : xs.mapM f = .ok (xs.map k) := by
  induction xs with
  | nil => rfl
  | cons x xs ih =>
    rw [List.mapM_cons, h x (by simp), ih fun y hy => h y (by simp [hy])]
    rfl

/-- Lists that correspond element by element, over a list in between. -/
theorem forall₂_trans {δ : Type} {r : β → γ → Prop} {s : γ → δ → Prop} {t : β → δ → Prop}
    {xs : List β} {ys : List γ} {zs : List δ} (h : ∀ x y z, r x y → s y z → t x z)
    (hr : List.Forall₂ r xs ys) (hs : List.Forall₂ s ys zs) : List.Forall₂ t xs zs := by
  induction hr generalizing zs with
  | nil =>
    cases hs
    exact .nil
  | cons hxy _ ih =>
    cases hs with
    | cons hyz hrest => exact .cons (h _ _ _ hxy hyz) (ih hrest)

theorem exists_of_forall₂ {r : β → γ → Prop} {xs : List β} {ys : List γ}
    (h : List.Forall₂ r xs ys) {x : β} (hx : x ∈ xs) : ∃ y ∈ ys, r x y := by
  induction h with
  | nil => exact absurd hx List.not_mem_nil
  | cons hfirst _ ih =>
    rcases List.mem_cons.mp hx with rfl | hx
    · exact ⟨_, List.mem_cons_self, hfirst⟩
    · obtain ⟨y, hy, hr⟩ := ih hx
      exact ⟨y, List.mem_cons_of_mem _ hy, hr⟩

theorem forall₂_of_mapM {xs : List β} {ys : List γ} {f : β → Except ε γ} (h : xs.mapM f = .ok ys) :
    List.Forall₂ (fun x y => f x = .ok y) xs ys := by
  induction xs generalizing ys with
  | nil =>
    obtain rfl := Except.ok.inj h
    exact .nil
  | cons x xs ih =>
    rw [List.mapM_cons] at h
    obtain ⟨y, hx, h⟩ := bind_eq_ok.mp h
    obtain ⟨zs, hrest, h⟩ := bind_eq_ok.mp h
    obtain rfl := Except.ok.inj h
    exact .cons hx (ih hrest)

/-- A fold whose steps succeed as long as an invariant holds is the fold of their results. -/
theorem foldlM_eq_ok {P : γ → Prop} {step : γ → β → Except ε γ} {f : γ → β → γ} {xs : List β}
    (h : ∀ acc, P acc → ∀ x ∈ xs, step acc x = .ok (f acc x) ∧ P (f acc x)) {acc : γ}
    (hacc : P acc) : xs.foldlM step acc = .ok (xs.foldl f acc) := by
  induction xs generalizing acc with
  | nil => rfl
  | cons x xs ih =>
    obtain ⟨hstep, hinv⟩ := h acc hacc x (by simp)
    rw [List.foldlM_cons, hstep, List.foldl_cons]
    exact ih (fun acc hacc y hy => h acc hacc y (by simp [hy])) hinv

theorem exists_foldlM {step : γ → β → Except ε γ} {xs : List β}
    (h : ∀ x ∈ xs, ∀ acc, ∃ next, step acc x = .ok next) (acc : γ) :
    ∃ out, xs.foldlM step acc = .ok out := by
  induction xs generalizing acc with
  | nil => exact ⟨acc, rfl⟩
  | cons x xs ih =>
    obtain ⟨next, hnext⟩ := h x (by simp) acc
    rw [List.foldlM_cons, hnext]
    exact ih (fun y hy => h y (by simp [hy])) next

/-- A loop over steps that succeed under a condition succeeds exactly if all of them do. -/
theorem mapM_eq_some {f : β → Option γ} {ok : β → Prop} {k : β → γ} {xs : List β} {ys : List γ}
    (h : ∀ x ∈ xs, ∀ y, f x = some y ↔ ok x ∧ y = k x) :
    xs.mapM f = some ys ↔ (∀ x ∈ xs, ok x) ∧ ys = xs.map k := by
  induction xs generalizing ys with
  | nil => simp [eq_comm]
  | cons x xs ih =>
    have hx := h x (by simp)
    rw [List.mapM_cons, List.forall_mem_cons, List.map_cons]
    cases hf : f x with
    | none =>
      have hnot : ¬ ok x := fun hok => by simp [(hx (k x)).mpr ⟨hok, rfl⟩] at hf
      simp [hnot]
    | some y =>
      obtain ⟨hok, rfl⟩ := (hx y).mp hf
      have hrest := fun ys => @ih ys fun z hz => h z (by simp [hz])
      cases hm : xs.mapM f with
      | none =>
        have hnot : ¬ ∀ z ∈ xs, ok z := fun hall => by
          simp [(hrest _).mpr ⟨hall, rfl⟩] at hm
        simp [hnot]
      | some zs =>
        obtain ⟨hall, rfl⟩ := (hrest zs).mp hm
        simp only [Option.bind_eq_bind, Option.bind_some, Option.pure_def, Option.some.injEq]
        exact ⟨fun heq => ⟨⟨hok, hall⟩, heq.symm⟩, fun hys => hys.2.symm⟩

end GateFusion
