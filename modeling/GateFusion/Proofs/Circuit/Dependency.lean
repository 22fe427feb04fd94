import GateFusion.Proofs.Circuit.Search
import GateFusion.Proofs.Circuit.Wiring

/-!
# Dependencies between blocks

A block depends on another if a path of links leads to it. Where ranks increase along links, the
search for a path through a third block is exact, although it leaves out every block ranked above
its target.
-/

namespace GateFusion
open Relation

lemma Follows.asymm {w : List Nat} (hn : w.Nodup) {a b : Nat} (h : Follows w a b) :
    ¬ Follows w b a := by
  intro h'
  obtain ⟨front, back, hw⟩ := h
  have hb := List.mem_of_getLast? ((follows_iff_getLast? hn hw).mp h')
  subst hw
  exact List.disjoint_of_nodup_append hn hb (by simp)

namespace CircuitGraph
variable {α : Type} {g : CircuitGraph α} {w : Qubit → List Nat}

/-- A link leads from one slot to another. -/
def Precedes (g : CircuitGraph α) (a b : Nat) : Prop :=
  ∃ l ∈ g.links, l.source = a ∧ l.target = b

/-- Ranks increase along links. -/
def Ranked (g : CircuitGraph α) : Prop :=
  ∀ l ∈ g.links, g.rankAt l.source < g.rankAt l.target

lemma mem_successors {a b : Nat} : b ∈ g.successors a ↔ g.Precedes a b := by
  simp [successors, Precedes, and_assoc]

lemma mem_predecessors {a b : Nat} : a ∈ g.predecessors b ↔ g.Precedes a b := by
  simp [predecessors, Precedes, and_assoc, and_comm]

lemma Wired.precedes_iff (hw : Wired g w) {a b : Nat} :
    g.Precedes a b ↔ ∃ q, Follows (w q) a b := by
  constructor
  · rintro ⟨l, hl, rfl, rfl⟩
    exact ⟨l.qubit, (hw.link_iff l).mp hl⟩
  · rintro ⟨q, h⟩
    exact ⟨⟨a, b, q⟩, (hw.link_iff ⟨a, b, q⟩).mpr h, rfl, rfl⟩

lemma Wired.live_of_precedes (hw : Wired g w) {a b : Nat} (h : g.Precedes a b) :
    a ∈ g.liveSlots ∧ b ∈ g.liveSlots := by
  obtain ⟨q, hf⟩ := hw.precedes_iff.mp h
  obtain ⟨c, hc, -⟩ := (hw.mem_iff q a).mp hf.mem_left
  obtain ⟨d, hd, -⟩ := (hw.mem_iff q b).mp hf.mem_right
  exact ⟨mem_liveSlots.mpr ⟨c, hc⟩, mem_liveSlots.mpr ⟨d, hd⟩⟩

lemma Ranked.lt_of_precedes (hr : g.Ranked) {a b : Nat} (h : g.Precedes a b) :
    g.rankAt a < g.rankAt b := by
  obtain ⟨l, hl, rfl, rfl⟩ := h
  exact hr l hl

lemma Ranked.lt_of_path (hr : g.Ranked) {a b : Nat} (h : TransGen g.Precedes a b) :
    g.rankAt a < g.rankAt b := by
  induction h with
  | single h => exact hr.lt_of_precedes h
  | tail _ h ih => exact ih.trans (hr.lt_of_precedes h)

lemma Ranked.le_of_path (hr : g.Ranked) {a b : Nat} (h : ReflTransGen g.Precedes a b) :
    g.rankAt a ≤ g.rankAt b := by
  rcases reflTransGen_iff_eq_or_transGen.mp h with rfl | h
  · exact le_rfl
  · exact (hr.lt_of_path h).le

/-- No block depends on itself. -/
lemma Ranked.acyclic (hr : g.Ranked) (a : Nat) : ¬ TransGen g.Precedes a a :=
  fun h => lt_irrefl _ (hr.lt_of_path h)

/-- The search finds a dependency through a third block exactly if there is one. -/
theorem hasIndirectPath_iff (hw : Wired g w) (hr : g.Ranked) {e l : BlockId}
    (he : g.contains e = true) (hl : g.contains l = true) :
    g.hasIndirectPath e l = true ↔
      ∃ x, TransGen g.Precedes e.slot x ∧ TransGen g.Precedes x l.slot := by
  simp only [hasIndirectPath, he, hl, Bool.true_and, List.contains_iff_mem]
  rw [mem_explore _ _ nodup_liveSlots]
  simp only [List.not_mem_nil, false_or, List.mem_filter, mem_successors, decide_eq_true_eq]
  constructor
  · rintro ⟨s, ⟨hes, hsl⟩, -, hpath⟩
    have hpath : ReflTransGen g.Precedes s l.slot :=
      ReflTransGen.mono (fun _ _ h => mem_successors.mp h.1) _ _ hpath
    rcases reflTransGen_iff_eq_or_transGen.mp hpath with h | h
    · exact absurd h.symm hsl
    · exact ⟨s, .single hes, h⟩
  · rintro ⟨x, hex, hxl⟩
    obtain ⟨s, hes, hsx⟩ := TransGen.head'_iff.mp hex
    have hsl : TransGen g.Precedes s l.slot := TransGen.trans_right hsx hxl
    refine ⟨s, ⟨hes, ?_⟩, ⟨(hw.live_of_precedes hes).2, ?_⟩, ?_⟩
    · rintro rfl
      exact hr.acyclic _ hsl
    · simpa using (hr.lt_of_path hsl).le
    · refine hsl.to_reflTransGen.head_induction_on .refl ?_
      intro a b hab hbl ih
      exact .head ⟨mem_successors.mpr hab, (hw.live_of_precedes hab).2,
        by simpa using hr.le_of_path hbl⟩ ih

/-- Where only the later block follows the earlier one, there is nothing to search. -/
lemma hasIndirectPath_of_only {e l : BlockId}
    (h : (g.successors e.slot).filter (· ≠ l.slot) = []) : g.hasIndirectPath e l = false := by
  simp only [hasIndirectPath, h, explore_nil, List.contains_nil, Bool.and_false]

section Adjacency
variable (hw : Wired g w) {a b e l : BlockId} {A B : Block α} (ha : g.block? a = some A)
  (hb : g.block? b = some B)

/-- Options agree on a value if there are some and all of them are that value. -/
lemma agreed_eq_some {orders : List (Option (BlockId × BlockId))} {p : BlockId × BlockId} :
    (match orders with
      | [] => none
      | order :: rest => if rest.all (· = order) then order else none) = some p ↔
      orders ≠ [] ∧ ∀ o ∈ orders, o = some p := by
  cases orders with
  | nil => simp
  | cons order rest =>
    simp only [List.all_eq_true, decide_eq_true_eq, ne_eq, reduceCtorEq, not_false_eq_true,
      List.mem_cons, forall_eq_or_imp, true_and]
    constructor
    · intro h
      split at h
      · rename_i hall
        exact ⟨h, fun o ho => (hall o ho).trans h⟩
      · simp at h
    · rintro ⟨h, hall⟩
      rw [if_pos fun o ho => (hall o ho).trans h.symm, h]

include hw ha hb

lemma Wired.side_eq_some (q : Qubit) :
    (if g.nextOn? a q = some b then some (a, b)
      else if g.nextOn? b q = some a then some (b, a) else none) = some (e, l) ↔
      ((e = a ∧ l = b) ∨ (e = b ∧ l = a)) ∧ Follows (w q) e.slot l.slot := by
  by_cases hab : g.nextOn? a q = some b
  · rw [if_pos hab, Option.some.injEq, Prod.mk.injEq]
    rw [hw.nextOn?_eq_some_iff ha hb] at hab
    have hba := hab.asymm (hw.nodup q)
    constructor
    · rintro ⟨rfl, rfl⟩
      exact ⟨Or.inl ⟨rfl, rfl⟩, hab⟩
    · rintro ⟨⟨rfl, rfl⟩ | ⟨rfl, rfl⟩, hf⟩
      · exact ⟨rfl, rfl⟩
      · exact absurd hf hba
  · rw [if_neg hab]
    rw [hw.nextOn?_eq_some_iff ha hb] at hab
    by_cases hba : g.nextOn? b q = some a
    · rw [if_pos hba, Option.some.injEq, Prod.mk.injEq]
      rw [hw.nextOn?_eq_some_iff hb ha] at hba
      constructor
      · rintro ⟨rfl, rfl⟩
        exact ⟨Or.inr ⟨rfl, rfl⟩, hba⟩
      · rintro ⟨⟨rfl, rfl⟩ | ⟨rfl, rfl⟩, hf⟩
        · exact absurd hf hab
        · exact ⟨rfl, rfl⟩
    · rw [if_neg hba]
      rw [hw.nextOn?_eq_some_iff hb ha] at hba
      refine iff_of_false (by simp) ?_
      rintro ⟨⟨rfl, rfl⟩ | ⟨rfl, rfl⟩, hf⟩
      · exact hab hf
      · exact hba hf

/-- Blocks are adjacent if they share a qubit and the earlier one comes directly before the later
one on the wire of every shared qubit. -/
theorem Wired.adjacency_eq_some : g.adjacency a b = some (e, l) ↔
    ((e = a ∧ l = b) ∨ (e = b ∧ l = a)) ∧ (∃ q, q ∈ A.gate.qubits ∧ q ∈ B.gate.qubits) ∧
      ∀ q, q ∈ A.gate.qubits → q ∈ B.gate.qubits → Follows (w q) e.slot l.slot := by
  by_cases hab : a = b
  · subst hab
    rw [adjacency, if_pos rfl]
    refine iff_of_false (by simp) ?_
    rintro ⟨⟨rfl, rfl⟩ | ⟨rfl, rfl⟩, ⟨q, hq, hq'⟩, hall⟩ <;>
      exact (hall q hq hq').ne (hw.nodup q) rfl
  rw [adjacency, if_neg hab, ha, hb]
  refine agreed_eq_some.trans ?_
  simp only [List.forall_mem_map, hw.side_eq_some ha hb, List.mem_filter, Gate.actsOn,
    List.contains_iff_mem, ne_eq, List.map_eq_nil_iff, List.filter_eq_nil_iff, not_forall,
    not_not, exists_prop, and_imp]
  constructor
  · rintro ⟨⟨q, hq, hq'⟩, hall⟩
    exact ⟨(hall q hq hq').1, ⟨q, hq, hq'⟩, fun q hq hq' => (hall q hq hq').2⟩
  · rintro ⟨hside, hshared, hall⟩
    exact ⟨hshared, fun q hq hq' => ⟨hside, hall q hq hq'⟩⟩

end Adjacency

/-- Adjacent blocks are live. -/
lemma live_of_adjacency {a b e l : BlockId} (h : g.adjacency a b = some (e, l)) :
    ∃ A B, g.block? a = some A ∧ g.block? b = some B := by
  unfold adjacency at h
  split at h
  · simp at h
  · split at h
    · rename_i A B ha hb
      exact ⟨A, B, ha, hb⟩
    · simp at h

lemma fusable_eq_some {a b e l : BlockId} {k : Nat} : g.fusable a b k = some (e, l) ↔
    g.adjacency a b = some (e, l) ∧ (∃ n, g.unionArity a b = some n ∧ n ≤ k) ∧
      g.hasIndirectPath e l = false := by
  unfold fusable
  cases g.adjacency a b with
  | none => simp
  | some p =>
    obtain ⟨e', l'⟩ := p
    cases g.unionArity a b with
    | none => simp
    | some n =>
      simp only [Option.bind_eq_bind, Option.bind_some, Bool.or_eq_true, decide_eq_true_eq,
        Option.some.injEq, Prod.mk.injEq, exists_eq_left']
      split
      · rename_i h
        refine iff_of_false (by simp) ?_
        rintro ⟨⟨rfl, rfl⟩, hn, hp⟩
        rcases h with h | h
        · omega
        · simp [hp] at h
      · rename_i h
        rw [not_or, not_lt, Bool.not_eq_true] at h
        simp only [Option.some.injEq, Prod.mk.injEq]
        constructor
        · rintro ⟨rfl, rfl⟩
          exact ⟨⟨rfl, rfl⟩, h⟩
        · exact And.left

end CircuitGraph
end GateFusion
