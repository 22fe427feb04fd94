import Mathlib.Data.Finset.Card
import GateFusion.Proofs.Circuit.Fusable
import GateFusion.Proofs.Circuit.Reachable

/-!
# Adjacent pairs

What the queries about two blocks decide, in terms of wires and paths. The search for a dependency
through a third block leaves out every block ranked above its target, yet it misses none, since on
every graph that calls lead to the ranks increase along links.
-/

namespace GateFusion.CircuitGraph
open Relation
variable {α : Type} {g : CircuitGraph α} {w : Qubit → List Nat} {a b e l : BlockId} {k : Nat}

/-- The qubits that the block of a name acts on. -/
def qubitsOf (g : CircuitGraph α) (id : BlockId) : Finset Qubit :=
  match g.block? id with
  | some b => b.gate.qubits.toFinset
  | none => ∅

/-- A path of links leads from one live block to another. -/
def Leads (g : CircuitGraph α) (x y : BlockId) : Prop :=
  g.contains x = true ∧ g.contains y = true ∧ TransGen g.Precedes x.slot y.slot

/-- A path leads from one block to another through a third. -/
def Detour (g : CircuitGraph α) (e l : BlockId) : Prop :=
  ∃ x, x ≠ e ∧ x ≠ l ∧ g.Leads e x ∧ g.Leads x l

/-- Two blocks share a qubit, and on the wire of each shared qubit the one directly follows the
other. -/
structure Adjoins (g : CircuitGraph α) (e l : BlockId) : Prop where
  shared : (g.qubitsOf e ∩ g.qubitsOf l).Nonempty
  follows : ∀ q ∈ g.qubitsOf e ∩ g.qubitsOf l, [e, l] <:+: g.wire q

/-- No path of links leads back once two blocks are contracted into one node. -/
def Contractible (g : CircuitGraph α) (e l : BlockId) : Prop :=
  ∀ s, ¬ TransGen (g.Contracted e.slot l.slot) s s

lemma qubitsOf_eq {A : Block α} (ha : g.block? a = some A) :
    g.qubitsOf a = A.gate.qubits.toFinset := by
  rw [qubitsOf, ha]

lemma mem_qubitsOf {q : Qubit} :
    q ∈ g.qubitsOf a ↔ ∃ A, g.block? a = some A ∧ q ∈ A.gate.qubits := by
  unfold qubitsOf
  cases g.block? a with
  | none => simp
  | some A => simp

lemma toFinset_unionInOrder {A B : Block α} (ha : g.block? a = some A) (hb : g.block? b = some B) :
    (unionInOrder A.gate B.gate).toFinset = g.qubitsOf a ∪ g.qubitsOf b := by
  rw [qubitsOf_eq ha, qubitsOf_eq hb]
  ext q
  rw [List.mem_toFinset, mem_unionInOrder, Finset.mem_union, List.mem_toFinset, List.mem_toFinset]

lemma Sound.length_unionInOrder (hs : Sound g w) {A B : Block α} (ha : g.block? a = some A)
    (hb : g.block? b = some B) :
    (unionInOrder A.gate B.gate).length = (g.qubitsOf a ∪ g.qubitsOf b).card := by
  have hn := nodup_unionInOrder (hs.nodup_qubits ha) (hs.nodup_qubits hb)
  rw [← toFinset_unionInOrder ha hb, List.toFinset_card_of_nodup hn]

/-- Names that follow each other on a wire are slots that do. -/
lemma Wired.infix_wire_iff (hw : Wired g w) {A B : Block α} (ha : g.block? a = some A)
    (hb : g.block? b = some B) {q : Qubit} :
    [a, b] <:+: g.wire q ↔ Follows (w q) a.slot b.slot := by
  constructor
  · rintro ⟨front, back, hsplit⟩
    refine ⟨front.map (·.slot), back.map (·.slot), ?_⟩
    rw [← hw.map_slot_wire, ← hsplit]
    simp
  · rintro ⟨front, back, hsplit⟩
    refine ⟨front.filterMap g.idAt?, back.filterMap g.idAt?, ?_⟩
    rw [hw.wire_eq, hsplit, List.filterMap_append,
      List.filterMap_cons_some (idAt?_of_block? ha), List.filterMap_cons_some (idAt?_of_block? hb)]
    simp

lemma Wired.adjoins_iff (hw : Wired g w) {A B : Block α} (ha : g.block? a = some A)
    (hb : g.block? b = some B) : g.Adjoins a b ↔
      (∃ q, q ∈ A.gate.qubits ∧ q ∈ B.gate.qubits) ∧
        ∀ q, q ∈ A.gate.qubits → q ∈ B.gate.qubits → Follows (w q) a.slot b.slot := by
  have hmem : ∀ q, q ∈ g.qubitsOf a ∩ g.qubitsOf b ↔ q ∈ A.gate.qubits ∧ q ∈ B.gate.qubits := by
    intro q
    rw [qubitsOf_eq ha, qubitsOf_eq hb, Finset.mem_inter, List.mem_toFinset, List.mem_toFinset]
  constructor
  · rintro ⟨⟨q, hq⟩, hfollows⟩
    refine ⟨⟨q, (hmem q).mp hq⟩, fun r hr hr' => ?_⟩
    exact (hw.infix_wire_iff ha hb).mp (hfollows r ((hmem r).mpr ⟨hr, hr'⟩))
  · rintro ⟨⟨q, hq⟩, hfollows⟩
    refine ⟨⟨q, (hmem q).mpr hq⟩, fun r hr => ?_⟩
    obtain ⟨hra, hrb⟩ := (hmem r).mp hr
    exact (hw.infix_wire_iff ha hb).mpr (hfollows r hra hrb)

lemma Adjoins.live (h : g.Adjoins a b) : ∃ A B, g.block? a = some A ∧ g.block? b = some B := by
  obtain ⟨q, hq⟩ := h.shared
  obtain ⟨hqa, hqb⟩ := Finset.mem_inter.mp hq
  obtain ⟨A, ha, -⟩ := mem_qubitsOf.mp hqa
  obtain ⟨B, hb, -⟩ := mem_qubitsOf.mp hqb
  exact ⟨A, B, ha, hb⟩

lemma Adjoins.precedes (h : g.Adjoins a b) (hw : Wired g w) : g.Precedes a.slot b.slot := by
  obtain ⟨A, B, ha, hb⟩ := h.live
  obtain ⟨⟨q, hq, hq'⟩, hfollows⟩ := (hw.adjoins_iff ha hb).mp h
  exact hw.precedes_iff.mpr ⟨q, hfollows q hq hq'⟩

/-- The adjacency query answers with the pair that adjoins, in its order. -/
theorem Wired.adjacency_iff_adjoins (hw : Wired g w) : g.adjacency a b = some (e, l) ↔
    ((e = a ∧ l = b) ∨ (e = b ∧ l = a)) ∧ g.Adjoins e l := by
  constructor
  · intro h
    obtain ⟨A, B, ha, hb⟩ := live_of_adjacency h
    obtain ⟨hside, ⟨q, hq, hq'⟩, hfollows⟩ := (hw.adjacency_eq_some ha hb).mp h
    refine ⟨hside, ?_⟩
    rcases hside with ⟨rfl, rfl⟩ | ⟨rfl, rfl⟩
    · exact (hw.adjoins_iff ha hb).mpr ⟨⟨q, hq, hq'⟩, hfollows⟩
    · exact (hw.adjoins_iff hb ha).mpr ⟨⟨q, hq', hq⟩, fun r hr hr' => hfollows r hr' hr⟩
  · rintro ⟨hside, h⟩
    obtain ⟨A, B, he, hl⟩ := h.live
    obtain ⟨⟨q, hq, hq'⟩, hfollows⟩ := (hw.adjoins_iff he hl).mp h
    rcases hside with ⟨rfl, rfl⟩ | ⟨rfl, rfl⟩
    · exact (hw.adjacency_eq_some he hl).mpr ⟨Or.inl ⟨rfl, rfl⟩, ⟨q, hq, hq'⟩, hfollows⟩
    · exact (hw.adjacency_eq_some hl he).mpr
        ⟨Or.inr ⟨rfl, rfl⟩, ⟨q, hq', hq⟩, fun r hr hr' => hfollows r hr' hr⟩

/-- A path of slots through a third one is a detour. -/
lemma Sound.detour_iff (hs : Sound g w) (he : g.contains e = true) (hl : g.contains l = true) :
    g.Detour e l ↔ ∃ x, TransGen g.Precedes e.slot x ∧ TransGen g.Precedes x l.slot := by
  constructor
  · rintro ⟨x, -, -, ⟨-, -, hex⟩, -, -, hxl⟩
    exact ⟨x.slot, hex, hxl⟩
  · rintro ⟨s, hes, hsl⟩
    obtain ⟨t, hst, -⟩ := TransGen.head'_iff.mp hsl
    obtain ⟨b, hb⟩ := mem_liveSlots.mp (hs.wired.live_of_precedes hst).1
    have hlive : g.contains ⟨s, b.seq⟩ = true := contains_iff.mpr ⟨b, block?_of_blockAt? hb⟩
    -- what lies between is neither of the two, as no block depends on itself
    refine ⟨⟨s, b.seq⟩, ?_, ?_, ⟨he, hlive, hes⟩, hlive, hl, hsl⟩
    · rintro rfl
      exact hs.ranked.acyclic _ hes
    · rintro rfl
      exact hs.ranked.acyclic _ hsl

/-- The search is exact, although it prunes by rank. -/
theorem Sound.hasIndirectPath_iff_detour (hs : Sound g w) (he : g.contains e = true)
    (hl : g.contains l = true) : g.hasIndirectPath e l = true ↔ g.Detour e l := by
  rw [hs.detour_iff he hl, hasIndirectPath_iff hs.wired hs.ranked he hl]

theorem Sound.contractible_iff (hs : Sound g w) (h : g.Adjoins e l) :
    g.Contractible e l ↔ g.hasIndirectPath e l = false := by
  obtain ⟨A, B, he, hl⟩ := h.live
  rw [Contractible, hs.ranked.acyclic_contracted_iff (h.precedes hs.wired), ← Bool.not_eq_true,
    hasIndirectPath_iff hs.wired hs.ranked (contains_iff.mpr ⟨A, he⟩) (contains_iff.mpr ⟨B, hl⟩)]

/-- A pair is fusable if it adjoins, is small enough and may be contracted. -/
theorem Sound.fusable_iff_contractible (hs : Sound g w) : g.fusable a b k = some (e, l) ↔
    ((e = a ∧ l = b) ∨ (e = b ∧ l = a)) ∧ g.Adjoins e l ∧
      (g.qubitsOf a ∪ g.qubitsOf b).card ≤ k ∧ g.Contractible e l := by
  rw [CircuitGraph.fusable_eq_some, hs.wired.adjacency_iff_adjoins, and_assoc]
  refine and_congr_right fun hside => and_congr_right fun hadjoins => ?_
  have hlive : ∃ A B, g.block? a = some A ∧ g.block? b = some B := by
    obtain ⟨A, B, he, hl⟩ := hadjoins.live
    rcases hside with ⟨rfl, rfl⟩ | ⟨rfl, rfl⟩
    · exact ⟨A, B, he, hl⟩
    · exact ⟨B, A, hl, he⟩
  obtain ⟨A, B, ha, hb⟩ := hlive
  rw [hs.contractible_iff hadjoins, unionArity_eq ha hb, hs.length_unionInOrder ha hb]
  simp

/-- The queries about pairs decide what they are meant to. -/
structure DecidesPairs (g : CircuitGraph α) : Prop where
  indirect : ∀ e l, g.contains e = true → g.contains l = true →
    (g.hasIndirectPath e l = true ↔ g.Detour e l)
  contractible : ∀ e l, g.Adjoins e l → (g.hasIndirectPath e l = false ↔ g.Contractible e l)
  comm : ∀ a b k, g.fusable a b k = g.fusable b a k
  fusable : ∀ a b k e l, g.fusable a b k = some (e, l) ↔
    ((e = a ∧ l = b) ∨ (e = b ∧ l = a)) ∧ g.Adjoins e l ∧
      (g.qubitsOf a ∪ g.qubitsOf b).card ≤ k ∧ g.Contractible e l

/-- On every graph that calls lead to, the search for a path through a third block is exact, and the
fusable pairs are those whose contraction leaves no cycle. -/
theorem decidesPairs_of_reachable {n : Nat} (h : CircuitGraph.empty n = .ok g)
    (calls : List (Call α)) : DecidesPairs (g.run calls) := by
  obtain ⟨w, hs⟩ := (Sound.empty h).run calls
  constructor
  case indirect => exact fun e l he hl => hs.hasIndirectPath_iff_detour he hl
  case contractible => exact fun e l hadjoins => (hs.contractible_iff hadjoins).symm
  case comm => exact hs.fusable_comm
  case fusable => exact fun a b k e l => hs.fusable_iff_contractible

section Sample

/-- A gate without any entry that is not zero. -/
def clearedOn (qubits : List Qubit) : Gate Nat :=
  ⟨"t", qubits, ⟨qubits.length, Array.replicate (Nat.pow 2 qubits.length * Nat.pow 2 qubits.length)
    (.numeric ⟨0, 0⟩)⟩⟩

lemma wellFormed_clearedOn {qubits : List Qubit} (hn : qubits.Nodup)
    (hwidth : qubits.length ≤ maxIndexWidth) : (clearedOn qubits).WellFormed :=
  ⟨hn, hwidth, rfl, Array.size_replicate⟩

/-- Three wires without a block. -/
def threeWires : CircuitGraph Nat :=
  ⟨#[], [], [], #[none, none, none], #[none, none, none], 0, 0⟩

lemma wellFormed_left : (clearedOn [0, 1]).WellFormed :=
  wellFormed_clearedOn (by decide) (by decide)

lemma wellFormed_right : (clearedOn [1, 2]).WellFormed :=
  wellFormed_clearedOn (by decide) (by decide)

lemma wellFormed_outer : (clearedOn [0, 2]).WellFormed :=
  wellFormed_clearedOn (by decide) (by decide)

/-- Three gates, one on every pair of wires. -/
def triangle : List (Call Nat) :=
  [.add (clearedOn [0, 1]) wellFormed_left, .add (clearedOn [1, 2]) wellFormed_right,
    .add (clearedOn [0, 2]) wellFormed_outer]

/-- The first and the last gate follow each other on the wire they share, but the second gate leads
around it, so they are not fusable. -/
theorem decidesPairs_triangle : CircuitGraph.empty 3 = .ok threeWires ∧
    (threeWires.run triangle).Adjoins ⟨0, 0⟩ ⟨2, 2⟩ ∧
    (threeWires.run triangle).Detour ⟨0, 0⟩ ⟨2, 2⟩ ∧
    ¬ (threeWires.run triangle).Contractible ⟨0, 0⟩ ⟨2, 2⟩ ∧
    (threeWires.run triangle).fusable ⟨0, 0⟩ ⟨2, 2⟩ 3 = none := by
  have hempty : CircuitGraph.empty 3 = .ok threeWires := rfl
  have hpairs := decidesPairs_of_reachable hempty triangle
  have hadjacent : (threeWires.run triangle).adjacency ⟨0, 0⟩ ⟨2, 2⟩ =
      some (⟨0, 0⟩, ⟨2, 2⟩) := rfl
  obtain ⟨w, hs⟩ := (Sound.empty hempty).run triangle
  have hadjoins := (hs.wired.adjacency_iff_adjoins.mp hadjacent).2
  have hdetour : (threeWires.run triangle).Detour ⟨0, 0⟩ ⟨2, 2⟩ := by
    have hinto : (threeWires.run triangle).Precedes 0 1 := mem_successors.mp (by decide)
    have hout : (threeWires.run triangle).Precedes 1 2 := mem_successors.mp (by decide)
    exact ⟨⟨1, 1⟩, by decide, by decide, ⟨rfl, rfl, .single hinto⟩, rfl, rfl, .single hout⟩
  have hpath := (hpairs.indirect _ _ rfl rfl).mpr hdetour
  have hcontract : ¬ (threeWires.run triangle).Contractible ⟨0, 0⟩ ⟨2, 2⟩ := by
    rw [← hpairs.contractible _ _ hadjoins, hpath]
    decide
  refine ⟨hempty, hadjoins, hdetour, hcontract, Option.eq_none_iff_forall_ne_some.mpr ?_⟩
  rintro ⟨e, l⟩ hfusable
  obtain ⟨hadj, -, hnone⟩ := fusable_eq_some.mp hfusable
  obtain ⟨rfl, rfl⟩ := Prod.mk.inj (Option.some.inj (hadjacent.symm.trans hadj))
  exact Bool.false_ne_true (hnone.symm.trans hpath)

end Sample

end GateFusion.CircuitGraph
