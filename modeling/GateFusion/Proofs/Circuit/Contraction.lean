import GateFusion.Proofs.Circuit.Dependency
import GateFusion.Proofs.Circuit.Splice
import Mathlib.Data.Prod.Lex

/-!
# Contraction

Two blocks of which one precedes the other may be drawn as one node of the dependencies. The links
that remain close a cycle exactly if a path led from the earlier block to the later one through a
third.
-/

namespace GateFusion
open Relation

/-- A relation along which some measure increases closes no cycle. -/
lemma acyclic_of_increasing {β γ : Type} [Preorder γ] {r : β → β → Prop} (measure : β → γ)
    (h : ∀ a b, r a b → measure a < measure b) (a : β) : ¬ TransGen r a a := by
  intro hcycle
  have hlt : TransGen (· < ·) (measure a) (measure a) := hcycle.lift measure h
  rw [transGen_eq_self] at hlt
  exact lt_irrefl _ hlt

namespace CircuitGraph
variable {α : Type} {g : CircuitGraph α} {e l : Nat}

/-- A link leads from one node to another once the slots `e` and `l` are one node, which goes by
the name of `e`. Links between the two are no longer there. -/
def Contracted (g : CircuitGraph α) (e l a b : Nat) : Prop :=
  a ≠ b ∧ ∃ x y, g.Precedes x y ∧ renamed e l e x = a ∧ renamed e l e y = b

/-- What depends on a pair of blocks. -/
def After (g : CircuitGraph α) (e l b : Nat) : Prop :=
  TransGen g.Precedes e b ∨ TransGen g.Precedes l b

lemma renamed_of_or {s : Nat} (h : s = e ∨ s = l) : renamed e l e s = e := if_pos h

lemma renamed_of_not {s : Nat} (h : ¬ (s = e ∨ s = l)) : renamed e l e s = s := if_neg h

/-- Paths remain, up to links between the pair. -/
lemma contracted_of_path {a b : Nat} (h : TransGen g.Precedes a b) :
    ReflTransGen (g.Contracted e l) (renamed e l e a) (renamed e l e b) := by
  refine h.to_reflTransGen.lift' (renamed e l e) fun x y hxy => ?_
  by_cases hsame : renamed e l e x = renamed e l e y
  · exact reflTransGen_iff_eq_or_transGen.mpr (Or.inl hsame.symm)
  · exact .single ⟨hsame, x, y, hxy, rfl, rfl⟩

/-- A block that leads into a pair does not depend on it, unless through a third one. -/
lemma Ranked.not_after (hr : g.Ranked) (hel : g.Precedes e l)
    (hdirect : ¬ ∃ x, TransGen g.Precedes e x ∧ TransGen g.Precedes x l) {a : Nat}
    (h : g.Precedes a e ∨ g.Precedes a l) : ¬ g.After e l a := by
  intro hafter
  rcases hafter with hea | hla
  · rcases h with h | h
    · exact hr.acyclic _ (hea.tail h)
    · exact hdirect ⟨a, hea, .single h⟩
  · rcases h with h | h
    · exact hr.acyclic _ ((TransGen.head hel hla).tail h)
    · exact hr.acyclic _ (hla.tail h)

open Classical in
/-- The place of a node: the pair, at `e`, stands between all that depends on it and the rest. -/
noncomputable def place (g : CircuitGraph α) (e l s : Nat) : ℕ ×ₗ ℕ :=
  if s = e then toLex (1, 0)
  else if g.After e l s then toLex (2, g.rankAt s)
  else toLex (0, g.rankAt s)

/-- Where no path leads around the pair, the remaining links lead to later places. -/
lemma Ranked.place_lt (hr : g.Ranked) (hel : g.Precedes e l)
    (hdirect : ¬ ∃ x, TransGen g.Precedes e x ∧ TransGen g.Precedes x l) {a b : Nat}
    (h : g.Contracted e l a b) : g.place e l a < g.place e l b := by
  obtain ⟨hne, x, y, hxy, rfl, rfl⟩ := h
  -- the link leads out of the pair, into it, or past it
  by_cases hx : x = e ∨ x = l
  · by_cases hy : y = e ∨ y = l
    · rw [renamed_of_or hx, renamed_of_or hy] at hne
      exact absurd rfl hne
    · have hafter : g.After e l y := by
        rcases hx with rfl | rfl
        · exact Or.inl (.single hxy)
        · exact Or.inr (.single hxy)
      rw [renamed_of_or hx, renamed_of_not hy, place, place, if_pos rfl,
        if_neg (not_or.mp hy).1, if_pos hafter, Prod.Lex.toLex_lt_toLex]
      exact Or.inl Nat.one_lt_two
  · by_cases hy : y = e ∨ y = l
    · have hbefore : ¬ g.After e l x := by
        apply hr.not_after hel hdirect
        rcases hy with rfl | rfl
        · exact Or.inl hxy
        · exact Or.inr hxy
      rw [renamed_of_not hx, renamed_of_or hy, place, place, if_neg (not_or.mp hx).1,
        if_neg hbefore, if_pos rfl, Prod.Lex.toLex_lt_toLex]
      exact Or.inl Nat.zero_lt_one
    · have hrank := hr.lt_of_precedes hxy
      have hmono : g.After e l x → g.After e l y :=
        Or.imp (fun h => h.tail hxy) fun h => h.tail hxy
      rw [renamed_of_not hx, renamed_of_not hy, place, place, if_neg (not_or.mp hx).1,
        if_neg (not_or.mp hy).1]
      by_cases hafter : g.After e l x
      · rw [if_pos hafter, if_pos (hmono hafter), Prod.Lex.toLex_lt_toLex]
        exact Or.inr ⟨rfl, hrank⟩
      · rw [if_neg hafter]
        split
        · rw [Prod.Lex.toLex_lt_toLex]
          exact Or.inl Nat.zero_lt_two
        · rw [Prod.Lex.toLex_lt_toLex]
          exact Or.inr ⟨rfl, hrank⟩

/-- Contracting a link leaves the dependencies acyclic exactly if no path leads around it. -/
theorem Ranked.acyclic_contracted_iff (hr : g.Ranked) (hel : g.Precedes e l) :
    (∀ s, ¬ TransGen (g.Contracted e l) s s) ↔
      ¬ ∃ x, TransGen g.Precedes e x ∧ TransGen g.Precedes x l := by
  constructor
  · rintro hacyclic ⟨x, hex, hxl⟩
    have hx : ¬ (x = e ∨ x = l) := by
      rintro (rfl | rfl)
      · exact hr.acyclic _ hex
      · exact hr.acyclic _ hxl
    -- a path around the pair becomes a cycle through its node
    have hout := contracted_of_path (e := e) (l := l) hex
    have hback := contracted_of_path (e := e) (l := l) hxl
    rw [renamed_of_or (Or.inl rfl), renamed_of_not hx] at hout
    rw [renamed_of_not hx, renamed_of_or (Or.inr rfl)] at hback
    have hpath : TransGen (g.Contracted e l) e x :=
      (reflTransGen_iff_eq_or_transGen.mp hout).resolve_left (not_or.mp hx).1
    exact hacyclic e (hpath.trans_left hback)
  · intro hdirect
    exact acyclic_of_increasing (g.place e l) fun a b hab => hr.place_lt hel hdirect hab

end CircuitGraph
end GateFusion
