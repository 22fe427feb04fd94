import GateFusion.Proofs.Circuit.Adjacency
import GateFusion.Proofs.Circuit.Names

/-!
# The contract of a replacement

Which pairs may be replaced by which gates, and what a replacement does to the wires and to the
other blocks. The pair stands together on the wires that both blocks share and one of the two stands
alone on the others; on each of them the new block takes the place.
-/

namespace GateFusion.CircuitGraph
open Relation
variable {α : Type} {g g' : CircuitGraph α} {w : Qubit → List Nat} {a b e l m : BlockId}
  {fused : Gate α}

/-- What a replacement asks of the names and the gate it is given. -/
structure Admits (g : CircuitGraph α) (a b : BlockId) (fused : Gate α) : Prop where
  live : g.contains a = true ∧ g.contains b = true
  distinct : a ≠ b
  adjoins : g.Adjoins a b ∨ g.Adjoins b a
  direct : ¬ g.Detour a b ∧ ¬ g.Detour b a
  qubits : fused.qubits.toFinset = g.qubitsOf a ∪ g.qubitsOf b

/-- A list in which those of two names that stand there have given way to a third. -/
def Supersedes (a b m : BlockId) (before after : List BlockId) : Prop :=
  ∃ front pair back, before = front ++ pair ++ back ∧
    after = front ++ (if pair = [] then [] else [m]) ++ back ∧
    pair.Perm ([a, b].filter fun x => x ∈ before)

/-- What a replacement does: the new block stands on every wire where the pair stood, with the
origins of both, and nothing else changes. -/
structure Exchanged (g : CircuitGraph α) (a b : BlockId) (fused : Gate α) (m : BlockId)
    (g' : CircuitGraph α) : Prop where
  wire : ∀ q, Supersedes a b m (g.wire q) (g'.wire q)
  kept : ∀ x, x ≠ a → x ≠ b → x ≠ m →
    (g'.block? x).map Block.content = (g.block? x).map Block.content
  consumed : g'.contains a = false ∧ g'.contains b = false
  fresh : g.contains m = false
  seq : m.seq = g.nextSeq
  made : ∃ c, g'.block? m = some c ∧ c.gate = fused ∧ c.origins.Pairwise (· < ·) ∧
    c.origins.Perm (g.originsOf a ++ g.originsOf b)
  numBlocks : g'.numBlocks + 1 = g.numBlocks

/-- When a replacement succeeds, and what becomes of the graph. -/
structure ReplaceContract (g : CircuitGraph α) (a b : BlockId) (fused : Gate α)
    (hfused : fused.WellFormed) : Prop where
  succeeds : (∃ m g', g.replace a b fused = .ok (m, g')) ↔ g.Admits a b fused
  unchanged : ∀ err, g.replace a b fused = .error err →
    g.perform (.replace a b fused hfused) = g
  exchanged : ∀ m g', g.replace a b fused = .ok (m, g') →
    g.perform (.replace a b fused hfused) = g' ∧ g.Exchanged a b fused m g'

section Admits

lemma Admits.symm (h : g.Admits a b fused) : g.Admits b a fused :=
  ⟨h.live.symm, h.distinct.symm, h.adjoins.symm, h.direct.symm,
    h.qubits.trans (Finset.union_comm _ _)⟩

lemma fuses_iff_qubits (hfused : fused.WellFormed) {first second : Block α}
    (he : g.block? e = some first) (hl : g.block? l = some second) :
    Fuses first second fused ↔ fused.qubits.toFinset = g.qubitsOf e ∪ g.qubitsOf l := by
  rw [qubitsOf_eq he, qubitsOf_eq hl, ← List.toFinset_append, List.toFinset.ext_iff]
  simp only [List.mem_append]
  exact ⟨fun h => h.mem_iff, fun h => ⟨hfused, h⟩⟩

/-- Pairs that adjoin without a detour may be merged. -/
lemma Sound.exists_mergeable_iff (hs : Sound g w) :
    (∃ first second, Mergeable g w e l first second) ↔ g.Adjoins e l ∧ ¬ g.Detour e l := by
  constructor
  · rintro ⟨first, second, hm⟩
    have hlive := hm.contains
    refine ⟨(hs.wired.adjoins_iff hm.earlier hm.later).mpr ⟨hm.shared, hm.follows⟩, ?_⟩
    rw [hs.detour_iff hlive.1 hlive.2]
    exact hm.direct
  · rintro ⟨hadjoins, hdirect⟩
    obtain ⟨first, second, he, hl⟩ := hadjoins.live
    rw [hs.detour_iff (contains_iff.mpr ⟨first, he⟩) (contains_iff.mpr ⟨second, hl⟩)] at hdirect
    obtain ⟨hshared, hfollows⟩ := (hs.wired.adjoins_iff he hl).mp hadjoins
    exact ⟨first, second, he, hl, hshared, hfollows, hdirect⟩

/-- No path leads back from the later block of a pair to the earlier one. -/
lemma Sound.not_detour_back (hs : Sound g w) (h : g.Adjoins e l) : ¬ g.Detour l e := by
  rintro ⟨x, -, -, ⟨-, -, hlx⟩, -, -, hxe⟩
  exact hs.ranked.acyclic _ ((hlx.trans hxe).tail (h.precedes hs.wired))

lemma Sound.admits (hs : Sound g w) {first second : Block α}
    (hm : Mergeable g w e l first second) (hf : Fuses first second fused) :
    g.Admits e l fused := by
  obtain ⟨hadjoins, hdirect⟩ := hs.exists_mergeable_iff.mp ⟨first, second, hm⟩
  refine ⟨hm.contains, ?_, Or.inl hadjoins, ⟨hdirect, hs.not_detour_back hadjoins⟩,
    (fuses_iff_qubits hf.wellFormed hm.earlier hm.later).mp hf⟩
  rintro rfl
  exact hm.ne hs.wired rfl

/-- A replacement succeeds exactly if its arguments are admitted. -/
theorem Sound.exists_replace_iff (hs : Sound g w) (hfused : fused.WellFormed) :
    (∃ m g', g.replace a b fused = .ok (m, g')) ↔ g.Admits a b fused := by
  constructor
  · rintro ⟨m, g', h⟩
    obtain ⟨e, l, first, second, hadj, hm, hf, -⟩ := (hs.replace_eq_ok hfused).mp h
    have hadmits := hs.admits hm hf
    rcases (hs.wired.adjacency_iff_adjoins.mp hadj).1 with ⟨rfl, rfl⟩ | ⟨rfl, rfl⟩
    · exact hadmits
    · exact hadmits.symm
  · intro h
    have hpair : ∃ e l, ((e = a ∧ l = b) ∨ (e = b ∧ l = a)) ∧ g.Adjoins e l ∧ ¬ g.Detour e l := by
      rcases h.adjoins with hadjoins | hadjoins
      · exact ⟨a, b, Or.inl ⟨rfl, rfl⟩, hadjoins, h.direct.1⟩
      · exact ⟨b, a, Or.inr ⟨rfl, rfl⟩, hadjoins, h.direct.2⟩
    obtain ⟨e, l, hside, hadjoins, hdirect⟩ := hpair
    obtain ⟨first, second, hm⟩ := hs.exists_mergeable_iff.mpr ⟨hadjoins, hdirect⟩
    have hqubits : fused.qubits.toFinset = g.qubitsOf e ∪ g.qubitsOf l := by
      rcases hside with ⟨rfl, rfl⟩ | ⟨rfl, rfl⟩
      · exact h.qubits
      · exact h.symm.qubits
    have hf := (fuses_iff_qubits hfused hm.earlier hm.later).mpr hqubits
    exact ⟨_, _, (hs.replace_eq_ok hfused).mpr ⟨e, l, first, second,
      hs.wired.adjacency_iff_adjoins.mpr ⟨hside, hadjoins⟩, hm, hf, rfl⟩⟩

end Admits

section Wires

lemma Supersedes.symm {before after : List BlockId} (h : Supersedes a b m before after) :
    Supersedes b a m before after := by
  obtain ⟨front, pair, back, hbefore, hafter, hpair⟩ := h
  exact ⟨front, pair, back, hbefore, hafter, hpair.trans ((List.Perm.swap b a []).filter _)⟩

lemma Wired.mem_wire_iff (hw : Wired g w) {A : Block α} (ha : g.block? a = some A) {q : Qubit} :
    a ∈ g.wire q ↔ a.slot ∈ w q := by
  rw [hw.mem_wire, hw.mem_iff]
  simp only [ha, (block?_eq_some.mp ha).1]

lemma Wired.filterMap_slot (hw : Wired g w) {A : Block α} (ha : g.block? a = some A) (q : Qubit) :
    (if a.slot ∈ w q then [a.slot] else []).filterMap g.idAt? =
      [a].filter fun x => x ∈ g.wire q := by
  by_cases h : a.slot ∈ w q
  · rw [if_pos h, List.filterMap_cons_some (idAt?_of_block? ha)]
    simp [(hw.mem_wire_iff ha).mpr h]
  · rw [if_neg h]
    simp [mt (hw.mem_wire_iff ha).mp h]

variable {first second : Block α} (hm : Mergeable g w e l first second)
  (hmerged : Merged g w e l first second fused m g')

include hmerged in
lemma Merged.filterMap_idAt? {slots : List Nat} (hpair : ∀ s ∈ slots, s ≠ e.slot ∧ s ≠ l.slot)
    (hnew : m.slot ∉ slots) : slots.filterMap g'.idAt? = slots.filterMap g.idAt? := by
  obtain ⟨rank, hat⟩ := hmerged.blockAt
  refine List.filterMap_congr fun s hs => ?_
  rw [idAt?, idAt?, hat, if_neg (ne_of_mem_of_not_mem hs hnew), if_neg (not_or.mpr (hpair s hs)),
    Option.map_map]
  rfl

include hm hmerged

lemma Merged.supersedes_of_mem (hs : Sound g w) {q : Qubit}
    (hq : q ∈ unionInOrder first.gate second.gate) : Supersedes e l m (g.wire q) (g'.wire q) := by
  have hname := idAt?_of_block? hmerged.block?_new.choose_spec.1
  obtain ⟨front, back, hp, -, -, hwire, hfront, hback⟩ :=
    hm.wire_of_mem hs.wired hmerged.fresh hq
  set pair := [e, l].filter fun x => x ∈ g.wire q with hpair
  -- what stands between front and back are the slots of the pair; the rest keep their names
  have hbefore : g.wire q = front.filterMap g.idAt? ++ pair ++ back.filterMap g.idAt? := by
    rw [hs.wired.wire_eq, hp.eq_of_mem (hm.ne hs.wired), List.filterMap_append,
      List.filterMap_append, List.filterMap_append, hs.wired.filterMap_slot hm.earlier,
      hs.wired.filterMap_slot hm.later, ← List.filter_append, List.append_assoc]
    rfl
  have hafter : g'.wire q = front.filterMap g.idAt? ++ [m] ++ back.filterMap g.idAt? := by
    rw [hmerged.sound.wired.wire_eq, hwire, List.filterMap_append,
      List.filterMap_cons_some hname, hmerged.filterMap_idAt? hp.left hfront,
      hmerged.filterMap_idAt? hp.right hback, List.append_cons]
  have hne : pair ≠ [] := by
    rw [mem_unionInOrder, ← (hm.mem_wire hs.wired q).1, ← (hm.mem_wire hs.wired q).2,
      ← hs.wired.mem_wire_iff hm.earlier, ← hs.wired.mem_wire_iff hm.later] at hq
    rcases hq with h | h
    · exact List.ne_nil_of_mem (List.mem_filter.mpr ⟨List.mem_cons_self, decide_eq_true h⟩)
    · exact List.ne_nil_of_mem (List.mem_filter.mpr ⟨by simp, decide_eq_true h⟩)
  exact ⟨_, pair, _, hbefore, by rw [if_neg hne, hafter], .refl _⟩

lemma Merged.supersedes_of_notMem (hs : Sound g w) {q : Qubit}
    (hq : q ∉ unionInOrder first.gate second.gate) : Supersedes e l m (g.wire q) (g'.wire q) := by
  obtain ⟨⟨he, hl⟩, hwire⟩ := hm.wire_of_notMem (m := m.slot) hs.wired hq
  have hnew : m.slot ∉ w q := by
    intro hmem
    rw [← hwire, hm.mem_mergeWire hs.wired hmerged.fresh, if_pos rfl] at hmem
    exact hq hmem
  have hsame : g'.wire q = g.wire q := by
    rw [hs.wired.wire_eq, hmerged.sound.wired.wire_eq, hwire]
    apply hmerged.filterMap_idAt? _ hnew
    intro s hmem
    exact ⟨ne_of_mem_of_not_mem hmem he, ne_of_mem_of_not_mem hmem hl⟩
  rw [← hs.wired.mem_wire_iff hm.earlier] at he
  rw [← hs.wired.mem_wire_iff hm.later] at hl
  exact ⟨g.wire q, [], [], by simp, by simp [hsame], by simp [he, hl]⟩

/-- On every wire the new block has taken the place of the pair, or of the one that stood there. -/
theorem Merged.supersedes (hs : Sound g w) (q : Qubit) :
    Supersedes e l m (g.wire q) (g'.wire q) := by
  by_cases hq : q ∈ unionInOrder first.gate second.gate
  · exact hmerged.supersedes_of_mem hm hs hq
  · exact hmerged.supersedes_of_notMem hm hs hq

omit hm in
/-- The new block has a name that no block had. -/
lemma Merged.ne_of_block? (hs : Sound g w) {x : BlockId} {c : Block α} (hx : g.block? x = some c) :
    x ≠ m := by
  rintro rfl
  obtain ⟨hat, hseq⟩ := block?_eq_some.mp hx
  have hlt := (hs.stored.placed _ _ hat).seq_lt
  rw [hseq, hmerged.seq] at hlt
  exact lt_irrefl _ hlt

lemma Merged.not_contains_pair (hs : Sound g w) :
    g'.contains e = false ∧ g'.contains l = false := by
  have hgone : ∀ {x}, (x = e ∨ x = l) → x ≠ m → g'.contains x = false := by
    intro x hx hne
    have hcontent := hmerged.map_content hm hne
    rw [if_pos hx, Option.map_eq_none_iff] at hcontent
    rw [contains, hcontent, Option.isSome_none]
  exact ⟨hgone (Or.inl rfl) (hmerged.ne_of_block? hs hm.earlier),
    hgone (Or.inr rfl) (hmerged.ne_of_block? hs hm.later)⟩

end Wires

/-- A replacement that succeeds exchanges the pair for the new block. -/
theorem Traced.exchanged {gates : List (Gate α)} (h : Traced g w gates) (hs : Sound g w)
    (hfused : fused.WellFormed) (hok : g.replace a b fused = .ok (m, g')) :
    g.Exchanged a b fused m g' := by
  obtain ⟨e, l, first, second, hadj, hm, hf, hmerge⟩ := (hs.replace_eq_ok hfused).mp hok
  have hside := (hs.wired.adjacency_iff_adjoins.mp hadj).1
  have hmerged := hs.merge hm hf hmerge
  have hpair : ∀ x, (x ≠ a ∧ x ≠ b) ↔ ¬ (x = e ∨ x = l) := by
    intro x
    rw [not_or]
    rcases hside with ⟨rfl, rfl⟩ | ⟨rfl, rfl⟩
    · exact Iff.rfl
    · exact and_comm
  constructor
  case wire =>
    intro q
    rcases hside with ⟨rfl, rfl⟩ | ⟨rfl, rfl⟩
    · exact hmerged.supersedes hm hs q
    · exact (hmerged.supersedes hm hs q).symm
  case kept =>
    intro x ha hb hx
    rw [hmerged.map_content hm hx, if_neg ((hpair x).mp ⟨ha, hb⟩)]
  case consumed =>
    have hgone := hmerged.not_contains_pair hm hs
    rcases hside with ⟨rfl, rfl⟩ | ⟨rfl, rfl⟩
    · exact hgone
    · exact hgone.symm
  case fresh =>
    rw [← Bool.not_eq_true, contains_iff]
    rintro ⟨c, hc⟩
    exact hmerged.ne_of_block? hs hc rfl
  case seq => exact hmerged.seq
  case made =>
    obtain ⟨c, hc, hgate, horigins⟩ := hmerged.block?_new
    refine ⟨c, hc, hgate, ?_, ?_⟩
    · have hascending := h.ascending_mergeSort (hm.ne hs.wired)
      rwa [← originsOf_eq hm.earlier, ← originsOf_eq hm.later, originsOf, originsOf, hm.earlier,
        hm.later, ← horigins] at hascending
    · rw [horigins, ← originsOf_merge hside hm.earlier hm.later]
      exact List.mergeSort_perm _ _
  case numBlocks => exact hmerged.numBlocks hm hs

/-- On every graph that calls lead to, a replacement succeeds exactly if the two blocks are live and
different, share a qubit, follow each other in one order on all shared wires without a path through
a third block, and the gate acts on their qubits. A failure changes nothing, a success only the
pair. -/
theorem replaceContract_of_reachable {n : Nat} (h : CircuitGraph.empty n = .ok g)
    (calls : List (Call α)) (a b : BlockId) (hfused : fused.WellFormed) :
    ReplaceContract (g.run calls) a b fused hfused := by
  obtain ⟨w, hs, htraced⟩ := (Traced.start h).run (Sound.empty h) calls
  constructor
  case succeeds => exact hs.exists_replace_iff hfused
  case unchanged =>
    intro err herr
    exact graph_exchange_of_error herr
  case exchanged =>
    intro m g' hok
    exact ⟨Change.graph_of_result hok, htraced.exchanged hs hfused hok⟩

section Sample

/-- Two gates that share the wire in the middle. -/
def bridge : List (Call Nat) :=
  [.add (clearedOn [0, 1]) wellFormed_left, .add (clearedOn [1, 2]) wellFormed_right]

lemma wellFormed_span : (clearedOn [2, 0, 1]).WellFormed :=
  wellFormed_clearedOn (by decide) (by decide)

/-- The pair stands together on one wire only. It is replaced on all three, although it is named in
the other order. -/
theorem replaceContract_bridge : CircuitGraph.empty 3 = .ok threeWires ∧
    (threeWires.run bridge).Admits ⟨1, 1⟩ ⟨0, 0⟩ (clearedOn [2, 0, 1]) ∧
    ∃ m g', (threeWires.run bridge).replace ⟨1, 1⟩ ⟨0, 0⟩ (clearedOn [2, 0, 1]) = .ok (m, g') ∧
      (threeWires.run bridge).Exchanged ⟨1, 1⟩ ⟨0, 0⟩ (clearedOn [2, 0, 1]) m g' := by
  have hempty : CircuitGraph.empty 3 = .ok threeWires := rfl
  have hcontract := replaceContract_of_reachable hempty bridge ⟨1, 1⟩ ⟨0, 0⟩ wellFormed_span
  have hadj : (threeWires.run bridge).adjacency ⟨1, 1⟩ ⟨0, 0⟩ = some (⟨0, 0⟩, ⟨1, 1⟩) := rfl
  have hreplace : (threeWires.run bridge).replace ⟨1, 1⟩ ⟨0, 0⟩ (clearedOn [2, 0, 1]) = .ok _ :=
    replace_of_adjacency hadj rfl rfl rfl ⟨rfl, rfl⟩
  exact ⟨hempty, hcontract.succeeds.mp ⟨_, _, hreplace⟩, _, _, hreplace,
    (hcontract.exchanged _ _ hreplace).2⟩

end Sample

end GateFusion.CircuitGraph
