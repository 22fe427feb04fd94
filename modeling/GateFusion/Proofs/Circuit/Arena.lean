import GateFusion.Circuit.Replace
import Mathlib.Data.List.Sort

/-!
# The arena of blocks

What placing, removing and re-ranking a block do to the blocks in the slots. The free list names
exactly the empty slots, so a new block never takes the slot of a live one.
-/

namespace GateFusion.CircuitGraph
variable {α : Type} {g : CircuitGraph α}

lemma lt_size_of_blockAt? {s : Nat} {b : Block α} (h : g.blockAt? s = some b) :
    s < g.slots.size := by
  by_contra hs
  simp [blockAt?, Array.getElem?_eq_none (Nat.le_of_not_lt hs)] at h

lemma mem_liveSlots {s : Nat} : s ∈ g.liveSlots ↔ ∃ b, g.blockAt? s = some b := by
  rw [liveSlots, List.mem_filter, List.mem_range, Option.isSome_iff_exists]
  exact ⟨And.right, fun h => ⟨lt_size_of_blockAt? h.choose_spec, h⟩⟩

lemma nodup_liveSlots : g.liveSlots.Nodup :=
  List.nodup_range.filter _

lemma block?_eq_some {id : BlockId} {b : Block α} :
    g.block? id = some b ↔ g.blockAt? id.slot = some b ∧ b.seq = id.seq := by
  simp [block?, Option.filter_eq_some_iff]

lemma contains_iff {id : BlockId} : g.contains id = true ↔ ∃ b, g.block? id = some b :=
  Option.isSome_iff_exists

lemma idAt?_eq_some {s : Nat} {id : BlockId} :
    g.idAt? s = some id ↔ ∃ b, g.blockAt? s = some b ∧ id = ⟨s, b.seq⟩ := by
  rw [idAt?, Option.map_eq_some_iff]
  exact exists_congr fun b => and_congr_right fun _ => eq_comm

lemma slot_of_idAt? {s : Nat} {x : BlockId} (h : g.idAt? s = some x) : x.slot = s := by
  obtain ⟨b, -, rfl⟩ := idAt?_eq_some.mp h
  rfl

lemma idAt?_of_block? {id : BlockId} {b : Block α} (h : g.block? id = some b) :
    g.idAt? id.slot = some id := by
  obtain ⟨hb, hseq⟩ := block?_eq_some.mp h
  exact idAt?_eq_some.mpr ⟨b, hb, by rw [hseq]⟩

lemma block?_of_blockAt? {s : Nat} {b : Block α} (h : g.blockAt? s = some b) :
    g.block? ⟨s, b.seq⟩ = some b :=
  block?_eq_some.mpr ⟨h, rfl⟩

lemma live_eq_ok {id : BlockId} {b : Block α} : g.live id = .ok b ↔ g.block? id = some b := by
  unfold live
  cases g.block? id <;> simp

lemma rankAt_of_blockAt? {s : Nat} {b : Block α} (h : g.blockAt? s = some b) :
    g.rankAt s = b.rank := by
  simp [rankAt, h]

/-- The free list names the empty slots, each once. -/
structure FreeList (g : CircuitGraph α) : Prop where
  mem_iff : ∀ s, s ∈ g.free ↔ s < g.slots.size ∧ g.blockAt? s = none
  nodup : g.free.Nodup

/-- Only the slots and the free list matter to the free list. -/
lemma FreeList.congr {g' : CircuitGraph α} (h : FreeList g) (hs : g'.slots = g.slots)
    (hf : g'.free = g.free) : FreeList g' := by
  refine ⟨fun s => ?_, hf ▸ h.nodup⟩
  rw [hf, hs, h.mem_iff, blockAt?, blockAt?, hs]

section Insert
variable (gate : Gate α) (origins : List Nat)

/-- The slot that the next block takes. -/
def nextSlot (g : CircuitGraph α) : Nat :=
  match g.free with
  | slot :: _ => slot
  | [] => g.slots.size

lemma insertBlock_fst : (g.insertBlock gate origins).1 = g.nextSlot := by
  cases hf : g.free <;> simp [insertBlock, nextSlot, hf]

@[simp] lemma links_insertBlock : (g.insertBlock gate origins).2.links = g.links := by
  unfold insertBlock
  split <;> rfl

@[simp] lemma heads_insertBlock : (g.insertBlock gate origins).2.heads = g.heads := by
  unfold insertBlock
  split <;> rfl

@[simp] lemma tails_insertBlock : (g.insertBlock gate origins).2.tails = g.tails := by
  unfold insertBlock
  split <;> rfl

@[simp] lemma nextSeq_insertBlock : (g.insertBlock gate origins).2.nextSeq = g.nextSeq + 1 := by
  unfold insertBlock
  split <;> rfl

@[simp] lemma nextOrigin_insertBlock :
    (g.insertBlock gate origins).2.nextOrigin = g.nextOrigin := by
  unfold insertBlock
  split <;> rfl

variable {gate origins}

lemma FreeList.nextSlot_empty (h : FreeList g) : g.blockAt? g.nextSlot = none := by
  unfold nextSlot
  split
  · rename_i slot rest hfree
    exact ((h.mem_iff slot).mp (by simp [hfree])).2
  · simp [blockAt?]

lemma FreeList.blockAt?_insertBlock (h : FreeList g) (s : Nat) :
    (g.insertBlock gate origins).2.blockAt? s =
      if s = g.nextSlot then some ⟨gate, g.nextSeq, g.nextSeq, origins⟩ else g.blockAt? s := by
  cases hfree : g.free with
  | nil =>
    by_cases hs : s = g.slots.size
    · simp [insertBlock, nextSlot, hfree, blockAt?, hs]
    · simp [insertBlock, nextSlot, hfree, blockAt?, Array.getElem?_push, hs]
  | cons slot rest =>
    have hlt : slot < g.slots.size := ((h.mem_iff slot).mp (by simp [hfree])).1
    by_cases hs : s = slot
    · simp [insertBlock, nextSlot, hfree, blockAt?, hs, hlt]
    · simp [insertBlock, nextSlot, hfree, blockAt?, hs,
        Array.getElem?_setIfInBounds_ne (Ne.symm hs)]

lemma FreeList.insertBlock (h : FreeList g) : FreeList (g.insertBlock gate origins).2 := by
  have hat : ∀ s, (g.insertBlock gate origins).2.blockAt? s =
      if s = g.nextSlot then some ⟨gate, g.nextSeq, g.nextSeq, origins⟩ else g.blockAt? s :=
    h.blockAt?_insertBlock
  cases hfree : g.free with
  | nil =>
    have hslot : g.nextSlot = g.slots.size := by simp [nextSlot, hfree]
    refine ⟨fun s => ?_, by simp [CircuitGraph.insertBlock, hfree]⟩
    have hs := h.mem_iff s
    rw [hat, hslot]
    simp only [hfree, List.not_mem_nil, false_iff, not_and] at hs
    simp only [CircuitGraph.insertBlock, hfree, List.not_mem_nil, Array.size_push, false_iff,
      not_and]
    intro hlt
    by_cases heq : s = g.slots.size
    · simp [heq]
    · simpa [heq] using hs (by omega)
  | cons slot rest =>
    have hslot : g.nextSlot = slot := by simp [nextSlot, hfree]
    have hn := h.nodup
    rw [hfree, List.nodup_cons] at hn
    refine ⟨fun s => ?_, by simpa [CircuitGraph.insertBlock, hfree] using hn.2⟩
    have hs := h.mem_iff s
    rw [hat, hslot]
    simp only [CircuitGraph.insertBlock, hfree, Array.size_setIfInBounds]
    by_cases heq : s = slot
    · simp [heq, hn.1]
    · simpa [hfree, heq] using hs

end Insert

section Remove

lemma blockAt?_removeBlock (slot s : Nat) :
    (g.removeBlock slot).blockAt? s = if s = slot then none else g.blockAt? s := by
  unfold removeBlock blockAt?
  by_cases hs : s = slot
  · subst hs
    by_cases hlt : s < g.slots.size
    · simp [hlt]
    · simp [hlt]
  · simp [Array.getElem?_setIfInBounds_ne (Ne.symm hs), hs]

@[simp] lemma heads_removeBlock (slot : Nat) : (g.removeBlock slot).heads = g.heads := rfl

@[simp] lemma tails_removeBlock (slot : Nat) : (g.removeBlock slot).tails = g.tails := rfl

@[simp] lemma nextSeq_removeBlock (slot : Nat) : (g.removeBlock slot).nextSeq = g.nextSeq := rfl

@[simp] lemma nextOrigin_removeBlock (slot : Nat) :
    (g.removeBlock slot).nextOrigin = g.nextOrigin := rfl

lemma mem_links_removeBlock (slot : Nat) (l : Link) :
    l ∈ (g.removeBlock slot).links ↔ l ∈ g.links ∧ l.source ≠ slot ∧ l.target ≠ slot := by
  simp [removeBlock]

lemma FreeList.removeBlock {slot : Nat} {b : Block α} (h : FreeList g)
    (hb : g.blockAt? slot = some b) : FreeList (g.removeBlock slot) := by
  have hlt := lt_size_of_blockAt? hb
  have hnot : slot ∉ g.free := fun hm => by simpa [hb] using ((h.mem_iff slot).mp hm).2
  refine ⟨fun s => ?_, List.nodup_cons.mpr ⟨hnot, h.nodup⟩⟩
  rw [blockAt?_removeBlock]
  by_cases hs : s = slot
  · simp [CircuitGraph.removeBlock, hs, hlt]
  · simpa [CircuitGraph.removeBlock, hs] using h.mem_iff s

end Remove

section Rank

lemma blockAt?_setRank (slot rank s : Nat) :
    (g.setRank slot rank).blockAt? s =
      (g.blockAt? s).map fun b => if s = slot then { b with rank := rank } else b := by
  unfold setRank
  cases hb : g.blockAt? slot with
  | none =>
    by_cases hs : s = slot
    · simp [hs, hb]
    · cases g.blockAt? s <;> simp [hs]
  | some b =>
    have hlt := lt_size_of_blockAt? hb
    by_cases hs : s = slot
    · subst hs
      rw [hb]
      simp [blockAt?, hlt]
    · simp only [blockAt?, Array.getElem?_setIfInBounds_ne (Ne.symm hs)]
      cases g.slots[s]?.join <;> simp [hs]

end Rank

end GateFusion.CircuitGraph
