import GateFusion.Proofs.Circuit.Rerank
import GateFusion.Proofs.Circuit.Splice

/-!
# Merging two blocks

Replacing two adjacent blocks without a dependency through a third one keeps a graph sound. On every
wire the new block stands where the two stood; all other blocks keep their gates, creation numbers
and origins.
-/

namespace GateFusion.CircuitGraph
open Relation
variable {α : Type} {g : CircuitGraph α} {w : Qubit → List Nat}

section SpliceIn
variable (slot : Nat) (s : Splice)

/-- One splice: a block is linked to what stands before and after it. -/
def spliceIn (slot : Nat) (g : CircuitGraph α) (s : Splice) : CircuitGraph α :=
  linkAfter slot s (linkBefore slot s g)

lemma spliceIn_fields : (spliceIn slot g s).slots = g.slots ∧
    (spliceIn slot g s).free = g.free ∧ (spliceIn slot g s).nextSeq = g.nextSeq ∧
    (spliceIn slot g s).nextOrigin = g.nextOrigin ∧
    (spliceIn slot g s).heads.size = g.heads.size ∧
    (spliceIn slot g s).tails.size = g.tails.size := by
  unfold spliceIn linkAfter linkBefore
  cases s.before <;> cases s.after <;> simp

lemma head_spliceIn (r : Qubit) : (spliceIn slot g s).heads[r]?.join =
    if r = s.qubit ∧ s.qubit < g.heads.size ∧ s.before = none then some slot
    else g.heads[r]?.join := by
  unfold spliceIn linkAfter linkBefore
  cases s.before <;> cases s.after <;> simp [join_setIfInBounds]

lemma tail_spliceIn (r : Qubit) : (spliceIn slot g s).tails[r]?.join =
    if r = s.qubit ∧ s.qubit < g.tails.size ∧ s.after = none then some slot
    else g.tails[r]?.join := by
  unfold spliceIn linkAfter linkBefore
  cases s.before <;> cases s.after <;> simp [join_setIfInBounds]

lemma mem_links_spliceIn (l : Link) : l ∈ (spliceIn slot g s).links ↔
    l ∈ g.links ∨ (l.qubit = s.qubit ∧ ((l.target = slot ∧ s.before = some l.source) ∨
      (l.source = slot ∧ s.after = some l.target))) := by
  obtain ⟨a, b, q⟩ := l
  unfold spliceIn linkAfter linkBefore
  cases s.before <;> cases s.after <;> simp <;> grind

end SpliceIn

/-- Splicing a slot into several wires, given what stands before and after it on each. -/
lemma foldl_spliceIn (slot : Nat) (before after : Qubit → Option Nat) (qs : List Qubit)
    (hq : ∀ q ∈ qs, q < g.heads.size) (he : g.tails.size = g.heads.size) {g' : CircuitGraph α}
    (hg' : (qs.map fun q => Splice.mk q (before q) (after q)).foldl (spliceIn slot) g = g') :
    (g'.slots = g.slots ∧ g'.free = g.free ∧ g'.nextSeq = g.nextSeq ∧
      g'.nextOrigin = g.nextOrigin ∧ g'.heads.size = g.heads.size ∧
      g'.tails.size = g.tails.size) ∧
      (∀ r, g'.heads[r]?.join =
        if r ∈ qs ∧ before r = none then some slot else g.heads[r]?.join) ∧
      (∀ r, g'.tails[r]?.join =
        if r ∈ qs ∧ after r = none then some slot else g.tails[r]?.join) ∧
      ∀ l, l ∈ g'.links ↔ l ∈ g.links ∨ (l.qubit ∈ qs ∧
        ((l.target = slot ∧ before l.qubit = some l.source) ∨
          (l.source = slot ∧ after l.qubit = some l.target))) := by
  induction qs generalizing g with
  | nil =>
    subst hg'
    simp
  | cons q qs ih =>
    have hlt : q < g.heads.size := hq q (by simp)
    obtain ⟨f1, f2, f3, f4, f5, f6⟩ := spliceIn_fields (g := g) slot ⟨q, before q, after q⟩
    rw [List.map_cons, List.foldl_cons] at hg'
    obtain ⟨⟨h1, h2, h3, h4, h5, h6⟩, hh, ht, hl⟩ :=
      ih (fun r hr => f5 ▸ hq r (by simp [hr])) (by rw [f5, f6, he]) hg'
    refine ⟨⟨h1.trans f1, h2.trans f2, h3.trans f3, h4.trans f4, h5.trans f5, h6.trans f6⟩,
      fun r => ?_, fun r => ?_, fun l => ?_⟩
    · rw [hh, head_spliceIn]
      by_cases hr : r = q
      · subst hr
        by_cases hb : before r = none <;> simp [hb, hlt]
      · simp [hr]
    · rw [ht, tail_spliceIn]
      by_cases hr : r = q
      · subst hr
        by_cases hb : after r = none <;> simp [hb, hlt, he]
      · simp [hr]
    · rw [hl, mem_links_spliceIn, or_assoc, List.mem_cons]
      refine or_congr_right ?_
      by_cases hr : l.qubit = q
      · simp [hr]
      · simp [hr]

/-- The graph in which two blocks are gone and a new one holds the next slot, not yet linked. -/
def staged (g : CircuitGraph α) (e l : Nat) (fused : Gate α) (origins : List Nat) (rank : Nat) :
    CircuitGraph α :=
  (((g.removeBlock e).removeBlock l).insertBlock fused origins).2.setRank
    ((g.removeBlock e).removeBlock l).nextSlot rank

/-- What stands before and after the blocks of a merge on a wire. -/
def spliceOf (g : CircuitGraph α) (earlier later : BlockId) (first second : Block α) (q : Qubit) :
    Splice :=
  ⟨q, (g.prevOn? (if first.gate.actsOn q then earlier else later) q).map (·.slot),
    (g.nextOn? (if second.gate.actsOn q then later else earlier) q).map (·.slot)⟩

lemma merge_eq (earlier later : BlockId) (first second : Block α) (fused : Gate α) :
    let m := ((g.removeBlock earlier.slot).removeBlock later.slot).nextSlot
    g.merge earlier later first second fused = (⟨m, g.nextSeq⟩,
      (((unionInOrder first.gate second.gate).map (g.spliceOf earlier later first second)).foldl
        (spliceIn m) (g.staged earlier.slot later.slot fused
          (first.origins ++ second.origins).mergeSort first.rank)).restoreOrder m) := by
  intro m
  have hm := insertBlock_fst (g := (g.removeBlock earlier.slot).removeBlock later.slot) fused
    (first.origins ++ second.origins).mergeSort
  unfold merge staged
  rw [← hm]
  rfl

/-- Two blocks that may be merged: one directly follows the other on all wires they share, and no
path leads from one to the other through a third block. -/
structure Mergeable (g : CircuitGraph α) (w : Qubit → List Nat) (e l : BlockId)
    (first second : Block α) : Prop where
  earlier : g.block? e = some first
  later : g.block? l = some second
  shared : ∃ q, q ∈ first.gate.qubits ∧ q ∈ second.gate.qubits
  follows : ∀ q, q ∈ first.gate.qubits → q ∈ second.gate.qubits → Follows (w q) e.slot l.slot
  direct : ¬ ∃ x, TransGen g.Precedes e.slot x ∧ TransGen g.Precedes x l.slot

section Mergeable
variable {e l : BlockId} {first second : Block α}

lemma Mergeable.ne (hm : Mergeable g w e l first second) (hw : Wired g w) : e.slot ≠ l.slot := by
  obtain ⟨q, hq, hq'⟩ := hm.shared
  exact (hm.follows q hq hq').ne (hw.nodup q)

lemma Mergeable.precedes (hm : Mergeable g w e l first second) (hw : Wired g w) :
    g.Precedes e.slot l.slot := by
  obtain ⟨q, hq, hq'⟩ := hm.shared
  exact hw.precedes_iff.mpr ⟨q, hm.follows q hq hq'⟩

lemma mem_unionInOrder {a b : Gate α} {q : Qubit} :
    q ∈ unionInOrder a b ↔ q ∈ a.qubits ∨ q ∈ b.qubits := by
  simp only [unionInOrder, Gate.actsOn, List.mem_append, List.mem_filter, Bool.not_eq_true',
    List.contains_eq_mem, decide_eq_false_iff_not]
  tauto

/-- On each of its wires, the pair or one of the two stands between what the splice names. -/
lemma Mergeable.holdsPair (hm : Mergeable g w e l first second) (hw : Wired g w) {q : Qubit}
    (hq : q ∈ unionInOrder first.gate second.gate) :
    ∃ front back, HoldsPair e.slot l.slot (w q) front back ∧
      (g.spliceOf e l first second q).before = front.getLast? ∧
      (g.spliceOf e l first second q).after = back.head? := by
  have hfirst := (block?_eq_some.mp hm.earlier).1
  have hsecond := (block?_eq_some.mp hm.later).1
  have hprev : ∀ {id b front back}, g.block? id = some b → w q = front ++ id.slot :: back →
      (g.prevOn? id q).map (·.slot) = front.getLast? := by
    intro id b front back hb hsplit
    rw [hw.prevOn?_of_split hb hsplit, slot_bind_idAt?]
    intro s hs
    apply hw.live_of_mem (q := q)
    rw [hsplit]
    exact List.mem_append_left _ (List.mem_of_getLast? hs)
  have hnext : ∀ {id b front back}, g.block? id = some b → w q = front ++ id.slot :: back →
      (g.nextOn? id q).map (·.slot) = back.head? := by
    intro id b front back hb hsplit
    rw [hw.nextOn?_of_split hb hsplit, slot_bind_idAt?]
    intro s hs
    apply hw.live_of_mem (q := q)
    rw [hsplit]
    exact List.mem_append_right _ (List.mem_cons_of_mem _ (List.mem_of_mem_head? hs))
  simp only [spliceOf, Gate.actsOn, List.contains_eq_mem, decide_eq_true_eq]
  by_cases hf : q ∈ first.gate.qubits
  · by_cases hs : q ∈ second.gate.qubits
    · obtain ⟨front, back, hsplit⟩ := hm.follows q hf hs
      have hsplit' : w q = (front ++ [e.slot]) ++ l.slot :: back := by simpa using hsplit
      rw [if_pos hf, if_pos hs]
      exact ⟨front, back, holdsPair_of_both (hw.nodup q) hsplit, hprev hm.earlier hsplit,
        hnext hm.later hsplit'⟩
    · obtain ⟨front, back, hsplit⟩ := hw.split hfirst hf
      rw [if_pos hf, if_neg hs]
      exact ⟨front, back, holdsPair_of_left (hw.nodup q) hsplit fun h => hs
        (hw.acts_of_mem hsecond h), hprev hm.earlier hsplit, hnext hm.earlier hsplit⟩
  · have hs : q ∈ second.gate.qubits := (mem_unionInOrder.mp hq).resolve_left hf
    obtain ⟨front, back, hsplit⟩ := hw.split hsecond hs
    rw [if_neg hf, if_pos hs]
    exact ⟨front, back, holdsPair_of_right (hw.nodup q) (fun h => hf (hw.acts_of_mem hfirst h))
      hsplit, hprev hm.later hsplit, hnext hm.later hsplit⟩

/-- What is stored once the two blocks have given way to the new one. -/
lemma Mergeable.staged_spec (hm : Mergeable g w e l first second) (hstored : Stored g)
    (hw : Wired g w) {fused : Gate α} {origins : List Nat} {m : Nat} {g' : CircuitGraph α}
    (hslot : ((g.removeBlock e.slot).removeBlock l.slot).nextSlot = m)
    (hg' : g.staged e.slot l.slot fused origins first.rank = g') :
    FreeList g' ∧ (m = e.slot ∨ m = l.slot ∨ g.blockAt? m = none) ∧
      (∀ s, g'.blockAt? s = if s = m then some ⟨fused, g.nextSeq, first.rank, origins⟩
        else if s = e.slot ∨ s = l.slot then none else g.blockAt? s) ∧
      (∀ k, k ∈ g'.links ↔ k ∈ g.links ∧
        (k.source ≠ e.slot ∧ k.source ≠ l.slot) ∧ k.target ≠ e.slot ∧ k.target ≠ l.slot) ∧
      g'.heads = g.heads ∧ g'.tails = g.tails ∧ g'.nextSeq = g.nextSeq + 1 ∧
      g'.nextOrigin = g.nextOrigin := by
  have hfirst := (block?_eq_some.mp hm.earlier).1
  have hsecond := (block?_eq_some.mp hm.later).1
  have hsecond' : (g.removeBlock e.slot).blockAt? l.slot = some second := by
    rw [blockAt?_removeBlock, if_neg (hm.ne hw).symm, hsecond]
  have hfree := (hstored.removeBlock hfirst).removeBlock hsecond'
  have hremoved : ∀ s, ((g.removeBlock e.slot).removeBlock l.slot).blockAt? s =
      if s = e.slot ∨ s = l.slot then none else g.blockAt? s := by
    intro s
    rw [blockAt?_removeBlock, blockAt?_removeBlock]
    by_cases hse : s = e.slot <;> by_cases hsl : s = l.slot <;> simp [hse, hsl]
  have hempty := hfree.nextSlot_empty
  have hrank := Reranked.setRank
    (g := (((g.removeBlock e.slot).removeBlock l.slot).insertBlock fused origins).2) m first.rank
  rw [staged, hslot] at hg'
  rw [hg'] at hrank
  rw [hslot] at hempty
  refine ⟨hrank.freeList hfree.insertBlock, ?_, fun s => ?_, fun k => ?_,
    hrank.heads.trans (by simp), hrank.tails.trans (by simp), hrank.nextSeq.trans (by simp),
    hrank.nextOrigin.trans (by simp)⟩
  · rw [hremoved] at hempty
    by_cases hor : m = e.slot ∨ m = l.slot
    · exact hor.imp_right Or.inl
    · exact Or.inr (Or.inr (by rwa [if_neg hor] at hempty))
  · rw [← hg', blockAt?_setRank, hfree.blockAt?_insertBlock, hremoved, hslot]
    by_cases hsm : s = m
    · simp [hsm]
    · simp only [hsm, if_false]
      split <;> simp
  · rw [hrank.links, links_insertBlock, mem_links_removeBlock, mem_links_removeBlock]
    tauto

/-- A gate on exactly the qubits of two blocks. -/
structure Fuses (first second : Block α) (fused : Gate α) : Prop where
  wellFormed : fused.WellFormed
  mem_iff : ∀ q, q ∈ fused.qubits ↔ q ∈ first.gate.qubits ∨ q ∈ second.gate.qubits

/-- What is known of the graph with the new block in slot `m`, before ranks are repaired. -/
structure Joined (g : CircuitGraph α) (w : Qubit → List Nat) (e l : BlockId)
    (first second : Block α) (fused : Gate α) (m : Nat) (g' : CircuitGraph α) : Prop where
  fresh : m = e.slot ∨ m = l.slot ∨ g.blockAt? m = none
  blockAt : ∀ s, g'.blockAt? s = if s = m then
      some ⟨fused, g.nextSeq, first.rank, (first.origins ++ second.origins).mergeSort⟩
    else if s = e.slot ∨ s = l.slot then none else g.blockAt? s
  free : FreeList g'
  wired : Wired g' fun q => mergeWire e.slot l.slot m (w q)
  numQubits : g'.numQubits = g.numQubits
  nextSeq : g'.nextSeq = g.nextSeq + 1
  nextOrigin : g'.nextOrigin = g.nextOrigin

lemma Mergeable.mem_wire (hm : Mergeable g w e l first second) (hw : Wired g w) (q : Qubit) :
    (e.slot ∈ w q ↔ q ∈ first.gate.qubits) ∧ (l.slot ∈ w q ↔ q ∈ second.gate.qubits) :=
  ⟨⟨hw.acts_of_mem (block?_eq_some.mp hm.earlier).1,
      hw.mem_of_acts (block?_eq_some.mp hm.earlier).1⟩,
    ⟨hw.acts_of_mem (block?_eq_some.mp hm.later).1,
      hw.mem_of_acts (block?_eq_some.mp hm.later).1⟩⟩

section Wires
variable (hm : Mergeable g w e l first second) (hw : Wired g w) {m : Nat}
  (hfresh : m = e.slot ∨ m = l.slot ∨ g.blockAt? m = none) {q : Qubit}
include hm hw

include hfresh in
lemma Mergeable.wire_of_mem (hq : q ∈ unionInOrder first.gate second.gate) : ∃ front back,
    HoldsPair e.slot l.slot (w q) front back ∧
      (g.spliceOf e l first second q).before = front.getLast? ∧
      (g.spliceOf e l first second q).after = back.head? ∧
      mergeWire e.slot l.slot m (w q) = front ++ m :: back ∧ m ∉ front ∧ m ∉ back := by
  obtain ⟨front, back, hp, hbefore, hafter⟩ := hm.holdsPair hw hq
  have hother : m ∈ front ++ back → m = e.slot ∨ m = l.slot := by
    intro hmem
    obtain ⟨b, hb, -⟩ := (hw.mem_iff q m).mp (hp.sublist.subset hmem)
    rcases hfresh with h | h | h
    · exact Or.inl h
    · exact Or.inr h
    · simp [h] at hb
  have hout : m ∉ front ++ back := by
    intro hmem
    have hne : m ≠ e.slot ∧ m ≠ l.slot := by
      rcases List.mem_append.mp hmem with h | h
      · exact hp.left m h
      · exact hp.right m h
    have := hother hmem
    tauto
  rw [List.mem_append, not_or] at hout
  exact ⟨front, back, hp, hbefore, hafter, hp.mergeWire_eq (hm.ne hw), hout⟩

lemma Mergeable.wire_of_notMem (hq : q ∉ unionInOrder first.gate second.gate) :
    (e.slot ∉ w q ∧ l.slot ∉ w q) ∧ mergeWire e.slot l.slot m (w q) = w q := by
  rw [mem_unionInOrder, not_or] at hq
  have he := mt (hm.mem_wire hw q).1.mp hq.1
  have hl := mt (hm.mem_wire hw q).2.mp hq.2
  exact ⟨⟨he, hl⟩, mergeWire_of_notMem he hl⟩

include hfresh

lemma Mergeable.nodup_mergeWire : (mergeWire e.slot l.slot m (w q)).Nodup := by
  by_cases hq : q ∈ unionInOrder first.gate second.gate
  · obtain ⟨front, back, hp, -, -, heq, hmf, hmb⟩ := hm.wire_of_mem hw hfresh hq
    rw [heq, List.nodup_middle, List.nodup_cons]
    exact ⟨by simp [hmf, hmb], (hw.nodup q).sublist hp.sublist⟩
  · rw [(hm.wire_of_notMem hw hq).2]
    exact hw.nodup q

lemma Mergeable.mem_mergeWire (s : Nat) : s ∈ mergeWire e.slot l.slot m (w q) ↔
    if s = m then q ∈ unionInOrder first.gate second.gate
    else s ∈ w q ∧ s ≠ e.slot ∧ s ≠ l.slot := by
  by_cases hq : q ∈ unionInOrder first.gate second.gate
  · obtain ⟨front, back, hp, -, -, heq, hmf, hmb⟩ := hm.wire_of_mem hw hfresh hq
    rw [heq]
    by_cases hsm : s = m
    · simp [hsm, hq]
    · simp only [List.mem_append, List.mem_cons, hsm, false_or, if_false]
      constructor
      · rintro (h | h)
        · exact ⟨hp.sublist.subset (by simp [h]), hp.left s h⟩
        · exact ⟨hp.sublist.subset (by simp [h]), hp.right s h⟩
      · rintro ⟨h, hse, hsl⟩
        exact (hp.mem_iff hse hsl).mp h
  · obtain ⟨⟨he, hl⟩, heq⟩ := hm.wire_of_notMem (m := m) hw hq
    rw [heq]
    by_cases hsm : s = m
    · rw [if_pos hsm, hsm]
      refine iff_of_false (fun hmem => ?_) hq
      obtain ⟨b, hb, -⟩ := (hw.mem_iff q m).mp hmem
      rcases hfresh with rfl | rfl | h
      · exact he hmem
      · exact hl hmem
      · simp [h] at hb
    · rw [if_neg hsm]
      exact ⟨fun h => ⟨h, fun hs => he (hs ▸ h), fun hs => hl (hs ▸ h)⟩, And.left⟩

lemma Mergeable.head?_mergeWire : (mergeWire e.slot l.slot m (w q)).head? =
    if q ∈ unionInOrder first.gate second.gate ∧ (g.spliceOf e l first second q).before = none
    then some m else (w q).head? := by
  by_cases hq : q ∈ unionInOrder first.gate second.gate
  · obtain ⟨front, back, hp, hbefore, -, heq, -⟩ := hm.wire_of_mem hw hfresh hq
    rw [heq]
    cases front with
    | nil => simp [hq, hbefore]
    | cons x front => simp [hq, hbefore, hp.head?]
  · simp [hq, (hm.wire_of_notMem (m := m) hw hq).2]

lemma Mergeable.getLast?_mergeWire : (mergeWire e.slot l.slot m (w q)).getLast? =
    if q ∈ unionInOrder first.gate second.gate ∧ (g.spliceOf e l first second q).after = none
    then some m else (w q).getLast? := by
  by_cases hq : q ∈ unionInOrder first.gate second.gate
  · obtain ⟨front, back, hp, -, hafter, heq, -⟩ := hm.wire_of_mem hw hfresh hq
    rw [heq]
    cases back with
    | nil => simp [hq, hafter]
    | cons x back => simp [hq, hafter, hp.getLast?, List.getLast?_cons]
  · simp [hq, (hm.wire_of_notMem (m := m) hw hq).2]

/-- The links of the new wires: those between other slots, and those to and from the new one. -/
lemma Mergeable.follows_mergeWire (a b : Nat) : Follows (mergeWire e.slot l.slot m (w q)) a b ↔
    (Follows (w q) a b ∧ (a ≠ e.slot ∧ a ≠ l.slot) ∧ b ≠ e.slot ∧ b ≠ l.slot) ∨
      (q ∈ unionInOrder first.gate second.gate ∧
        ((b = m ∧ (g.spliceOf e l first second q).before = some a) ∨
          (a = m ∧ (g.spliceOf e l first second q).after = some b))) := by
  by_cases hq : q ∈ unionInOrder first.gate second.gate
  · obtain ⟨front, back, hp, hbefore, hafter, heq, -⟩ := hm.wire_of_mem hw hfresh hq
    rw [heq, hp.follows_iff, hbefore, hafter, follows_append, follows_cons, List.head?_cons]
    simp only [hq, Option.some.injEq, true_and]
    constructor
    · rintro (h | (⟨h, h'⟩ | h) | ⟨h, h'⟩)
      · exact Or.inl (Or.inl h)
      · exact Or.inr (Or.inr ⟨h.symm, h'⟩)
      · exact Or.inl (Or.inr h)
      · exact Or.inr (Or.inl ⟨h'.symm, h⟩)
    · rintro ((h | h) | ⟨h, h'⟩ | ⟨h, h'⟩)
      · exact Or.inl h
      · exact Or.inr (Or.inl (Or.inr h))
      · exact Or.inr (Or.inr ⟨h', h.symm⟩)
      · exact Or.inr (Or.inl (Or.inl ⟨h.symm, h'⟩))
  · obtain ⟨⟨he, hl⟩, heq⟩ := hm.wire_of_notMem (m := m) hw hq
    rw [heq]
    simp only [hq, false_and, or_false]
    refine ⟨fun hf => ⟨hf, ⟨?_, ?_⟩, ?_, ?_⟩, And.left⟩
    · exact fun h => he (h ▸ hf.mem_left)
    · exact fun h => hl (h ▸ hf.mem_left)
    · exact fun h => he (h ▸ hf.mem_right)
    · exact fun h => hl (h ▸ hf.mem_right)

end Wires

lemma Mergeable.joined_wired (hm : Mergeable g w e l first second) (hw : Wired g w)
    {fused : Gate α} (hf : Fuses first second fused) {m : Nat} {g' : CircuitGraph α}
    (hfresh : m = e.slot ∨ m = l.slot ∨ g.blockAt? m = none) {b : Block α} (hb : b.gate = fused)
    (hat : ∀ s, g'.blockAt? s = if s = m then some b
      else if s = e.slot ∨ s = l.slot then none else g.blockAt? s)
    (hends : g'.tails.size = g'.heads.size)
    (hheads : ∀ q, g'.heads[q]?.join = if q ∈ unionInOrder first.gate second.gate ∧
      (g.spliceOf e l first second q).before = none then some m else g.heads[q]?.join)
    (htails : ∀ q, g'.tails[q]?.join = if q ∈ unionInOrder first.gate second.gate ∧
      (g.spliceOf e l first second q).after = none then some m else g.tails[q]?.join)
    (hlinks : ∀ k, k ∈ g'.links ↔ (k ∈ g.links ∧
        (k.source ≠ e.slot ∧ k.source ≠ l.slot) ∧ k.target ≠ e.slot ∧ k.target ≠ l.slot) ∨
      (k.qubit ∈ unionInOrder first.gate second.gate ∧
        ((k.target = m ∧ (g.spliceOf e l first second k.qubit).before = some k.source) ∨
          (k.source = m ∧ (g.spliceOf e l first second k.qubit).after = some k.target)))) :
    Wired g' fun q => mergeWire e.slot l.slot m (w q) := by
  refine ⟨hends, fun q => hm.nodup_mergeWire hw hfresh, fun q s => ?_, fun q => ?_, fun q => ?_,
    fun k => ?_⟩
  · rw [hm.mem_mergeWire hw hfresh, hat, mem_unionInOrder, ← hf.mem_iff]
    by_cases hsm : s = m
    · simp [hsm, hb]
    · rw [if_neg hsm, if_neg hsm, hw.mem_iff]
      by_cases hpair : s = e.slot ∨ s = l.slot
      · rw [if_pos hpair]
        refine iff_of_false ?_ (by simp)
        tauto
      · rw [if_neg hpair]
        exact and_iff_left (not_or.mp hpair)
  · rw [hheads, hw.head, hm.head?_mergeWire hw hfresh]
  · rw [htails, hw.tail, hm.getLast?_mergeWire hw hfresh]
  · rw [hlinks, hw.link_iff, hm.follows_mergeWire hw hfresh]

theorem Mergeable.joined_spec (hm : Mergeable g w e l first second) (hstored : Stored g)
    (hw : Wired g w) {fused : Gate α} (hf : Fuses first second fused) {m : Nat}
    {g₁ g' : CircuitGraph α} (hslot : ((g.removeBlock e.slot).removeBlock l.slot).nextSlot = m)
    (hg₁ : g.staged e.slot l.slot fused (first.origins ++ second.origins).mergeSort
      first.rank = g₁)
    (hg' : ((unionInOrder first.gate second.gate).map (g.spliceOf e l first second)).foldl
      (spliceIn m) g₁ = g') :
    Joined g w e l first second fused m g' := by
  have hfirst := (block?_eq_some.mp hm.earlier).1
  have hsecond := (block?_eq_some.mp hm.later).1
  obtain ⟨hfree, hfresh, hat, hlink, hheads, htails, hseq, horigin⟩ :=
    hm.staged_spec hstored hw hslot hg₁
  have hin : ∀ q ∈ unionInOrder first.gate second.gate, q < g₁.heads.size := by
    intro q hq
    rw [hheads]
    rcases mem_unionInOrder.mp hq with hq | hq
    · exact (hstored.placed _ _ hfirst).inside q hq
    · exact (hstored.placed _ _ hsecond).inside q hq
  obtain ⟨⟨h1, h2, h3, h4, h5, h6⟩, hh, ht, hl⟩ := foldl_spliceIn m
    (fun q => (g.spliceOf e l first second q).before)
    (fun q => (g.spliceOf e l first second q).after) (unionInOrder first.gate second.gate)
    hin (by rw [hheads, htails, hw.ends]) hg'
  have hat' : ∀ s, g'.blockAt? s = g₁.blockAt? s := fun s => by rw [blockAt?, blockAt?, h1]
  refine ⟨hfresh, fun s => (hat' s).trans (hat s), hfree.congr h1 h2,
    hm.joined_wired hw hf hfresh rfl (fun s => (hat' s).trans (hat s)) ?_ (fun q => ?_)
      (fun q => ?_) (fun k => ?_), ?_, h3.trans hseq, h4.trans horigin⟩
  · rw [h5, h6, hheads, htails, hw.ends]
  · rw [hh, hheads]
  · rw [ht, htails]
  · rw [hl, hlink]
  · rw [numQubits, h5, hheads, numQubits]

end Mergeable

end GateFusion.CircuitGraph
