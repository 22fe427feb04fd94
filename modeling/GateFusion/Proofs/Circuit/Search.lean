import GateFusion.Circuit.Order
import Mathlib.Logic.Relation

/-!
# Searches along links

`explore` collects exactly the slots that a path of unseen slots passing the test leads to, each
of them once.
-/

namespace GateFusion.CircuitGraph
open Relation

/-- One step of a search, to an unseen slot that passes the test. -/
def SearchStep (step : Nat → List Nat) (keep : Nat → Bool) (unseen : List Nat) (a b : Nat) : Prop :=
  b ∈ step a ∧ b ∈ unseen ∧ keep b = true

/-- A search starting at slot `s` meets slot `n`. -/
def Meets (step : Nat → List Nat) (keep : Nat → Bool) (unseen : List Nat) (s n : Nat) : Prop :=
  (s ∈ unseen ∧ keep s = true) ∧ ReflTransGen (SearchStep step keep unseen) s n

variable {step : Nat → List Nat} {keep : Nat → Bool} {unseen : List Nat}

lemma explore_nil (reached : List Nat) : explore step keep unseen [] reached = reached := by
  rw [explore]

lemma explore_take {n : Nat} {rest reached : List Nat} (hn : n ∈ unseen) (hkeep : keep n = true) :
    explore step keep unseen (n :: rest) reached =
      explore step keep (unseen.erase n) (step n ++ rest) (reached ++ [n]) := by
  rw [explore, if_pos ⟨hn, hkeep⟩]

lemma Meets.mono {unseen' : List Nat} (hsub : ∀ x ∈ unseen, x ∈ unseen') {s n : Nat}
    (h : Meets step keep unseen s n) : Meets step keep unseen' s n :=
  ⟨⟨hsub s h.1.1, h.1.2⟩,
    ReflTransGen.mono (fun _ _ hab => ⟨hab.1, hsub _ hab.2.1, hab.2.2⟩) _ _ h.2⟩

/-- A path either avoids a slot, or ends there, or leaves it for the last time by one of its
successors. -/
lemma Meets.avoid {s n m : Nat} (hn : unseen.Nodup) (h : Meets step keep unseen s m) :
    Meets step keep (unseen.erase n) s m ∨ m = n ∨
      ∃ t ∈ step n, Meets step keep (unseen.erase n) t m := by
  obtain ⟨hs, hpath⟩ := h
  have hmem : ∀ {x}, x ∈ unseen → x ≠ n → x ∈ unseen.erase n :=
    fun hx hne => (hn.mem_erase_iff).mpr ⟨hne, hx⟩
  induction hpath with
  | refl =>
    by_cases hsn : s = n
    · exact Or.inr (Or.inl hsn)
    · exact Or.inl ⟨⟨hmem hs.1 hsn, hs.2⟩, .refl⟩
  | @tail y z _ hyz ih =>
    by_cases hzn : z = n
    · exact Or.inr (Or.inl hzn)
    have hz : z ∈ unseen.erase n := hmem hyz.2.1 hzn
    rcases ih with hav | hyn | ⟨t, ht, hav⟩
    · exact Or.inl ⟨hav.1, hav.2.tail ⟨hyz.1, hz, hyz.2.2⟩⟩
    · exact Or.inr (Or.inr ⟨z, hyn ▸ hyz.1, ⟨hz, hyz.2.2⟩, .refl⟩)
    · exact Or.inr (Or.inr ⟨t, ht, hav.1, hav.2.tail ⟨hyz.1, hz, hyz.2.2⟩⟩)

/-- The slots that a search collects, beside those it was given. -/
theorem mem_explore (stack reached : List Nat) (hn : unseen.Nodup) (m : Nat) :
    m ∈ explore step keep unseen stack reached ↔
      m ∈ reached ∨ ∃ s ∈ stack, Meets step keep unseen s m := by
  fun_induction explore step keep unseen stack reached with
  | case1 => simp
  | case2 unseen reached n rest h ih =>
    rw [ih (hn.erase n), List.mem_append, List.mem_singleton]
    have hsub : ∀ x ∈ unseen.erase n, x ∈ unseen := fun x => List.mem_of_mem_erase
    constructor
    · rintro ((hm | rfl) | ⟨s, hs, hmeets⟩)
      · exact Or.inl hm
      · exact Or.inr ⟨m, by simp, h, .refl⟩
      · rcases List.mem_append.mp hs with hs | hs
        · have hall := hmeets.mono hsub
          exact Or.inr ⟨n, by simp, h, .head ⟨hs, hall.1.1, hall.1.2⟩ hall.2⟩
        · exact Or.inr ⟨s, by simp [hs], hmeets.mono hsub⟩
    · rintro (hm | ⟨s, hs, hmeets⟩)
      · exact Or.inl (Or.inl hm)
      · rcases hmeets.avoid (n := n) hn with hav | rfl | ⟨t, ht, hav⟩
        · rcases List.mem_cons.mp hs with rfl | hs
          · exact absurd hav.1.1 hn.not_mem_erase
          · exact Or.inr ⟨s, by simp [hs], hav⟩
        · exact Or.inl (Or.inr rfl)
        · exact Or.inr ⟨t, by simp [ht], hav⟩
  | case3 unseen reached n rest h ih =>
    rw [ih hn]
    have hnone : ¬ Meets step keep unseen n m := fun hmeets => h hmeets.1
    simp [hnone]

lemma nodup_explore (stack reached : List Nat) (hn : unseen.Nodup) (hr : reached.Nodup)
    (hd : ∀ x ∈ reached, x ∉ unseen) : (explore step keep unseen stack reached).Nodup := by
  fun_induction explore step keep unseen stack reached with
  | case1 => exact hr
  | case2 unseen reached n rest h ih =>
    refine ih (hn.erase n) ?_ ?_
    · refine List.nodup_append.mpr ⟨hr, by simp, ?_⟩
      rintro x hx y hy rfl
      exact hd x hx (List.mem_singleton.mp hy ▸ h.1)
    · intro x hx hmem
      rcases List.mem_append.mp hx with hx | hx
      · exact hd x hx (List.mem_of_mem_erase hmem)
      · exact hn.not_mem_erase (List.mem_singleton.mp hx ▸ hmem)
  | case3 unseen reached n rest h ih => exact ih hn hr hd

end GateFusion.CircuitGraph
